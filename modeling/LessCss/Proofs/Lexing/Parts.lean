import LessCss.Proofs.Lexing.Cutting

/-!
# Parts of a lexed text

A part of a text, cut out where tokens, trivia or stray stretches start or end, has the tokens,
trivia and stray stretches that the whole text has there (`Lexing.ofText_slice`).  In terms of
pieces there is little left to show: where the pieces of a text are divided, each part has its share
of them (`Lexer.pieces_append`).  What remains is about places.  Those in a part are further on in
the whole text by what stands before the part, and what stands before or behind it does not lie
within it, because no piece is empty.
-/

namespace LessCss

/-- A token further on in the text. -/
def Token.shift (n : Nat) (t : Token) : Token := { t with start := t.start + n, stop := t.stop + n }

/-- A piece of trivia further on in the text. -/
def Trivia.shift (n : Nat) (t : Trivia) : Trivia :=
  { t with start := t.start + n, stop := t.stop + n }

/-- A stray stretch further on in the text. -/
def Stray.shift (n : Nat) (s : Stray) : Stray := { s with start := s.start + n, stop := s.stop + n }

/-- Two ways to cut a text at the same byte are the same. -/
theorem Text.eq_of_width_eq {a b x y : List Char} (h : a ++ b = x ++ y) (hw : width a = width x) :
    a = x := by
  obtain ⟨u, rfl, -⟩ := exists_append_of_width_le h (Nat.le_of_eq hw.symm)
  have hnil : u = [] := by
    by_contra hne
    have hpos := width_pos hne
    rw [width_append] at hw
    omega
  rw [hnil, List.append_nil]

namespace Lexing

open Lexer Text

/-- A token, a piece of trivia or a stray stretch starts or ends at a byte. -/
def IsCut (l : Lexing) (n : Nat) : Prop := ∃ s ∈ l.spans, n = s.1 ∨ n = s.2

/-- Everything further on in the text. -/
def shift (n : Nat) (l : Lexing) : Lexing :=
  ⟨l.tokens.map (Token.shift n), l.trivia.map (Trivia.shift n), l.strays.map (Stray.shift n)⟩

/-- What lies within a stretch of the text, from byte `i` up to byte `j`. -/
def between (l : Lexing) (i j : Nat) : Lexing :=
  ⟨l.tokens.filter fun t => i ≤ t.start ∧ t.stop ≤ j, l.trivia.filter fun t =>
    i ≤ t.start ∧ t.stop ≤ j, l.strays.filter fun s => i ≤ s.start ∧ s.stop ≤ j⟩

instance : Append Lexing :=
  ⟨fun l m => ⟨l.tokens ++ m.tokens, l.trivia ++ m.trivia, l.strays ++ m.strays⟩⟩

@[simp] theorem empty_append (l : Lexing) : ({} : Lexing) ++ l = l := rfl

@[simp] theorem append_empty (l : Lexing) : l ++ ({} : Lexing) = l := by
  show Lexing.mk (l.tokens ++ []) (l.trivia ++ []) (l.strays ++ []) = l
  rw [List.append_nil, List.append_nil, List.append_nil]

/-! ## Pieces side by side -/

/-- Pieces side by side have the tokens, trivia and strays of both, the second further on. -/
theorem ofPieces_append (ps qs : List Piece) : ∀ start, ofPieces start (ps ++ qs) =
    ofPieces start ps ++ ofPieces (start + width (textOf ps)) qs := by
  induction ps with
  | nil => exact fun start => rfl
  | cons p ps ih =>
    intro start
    have ih := ih (start + width p.text)
    rw [Nat.add_assoc, ← width_append, ← textOf_cons] at ih
    obtain ⟨cut, text⟩ := p
    rcases cut with _ | (kind | kind)
    all_goals
      rw [List.cons_append, ofPieces, ih]
      rfl

/-- Pieces further on in a text have the same tokens further on. -/
theorem ofPieces_shift (n : Nat) (ps : List Piece) : ∀ start, ofPieces (start + n) ps =
    (ofPieces start ps).shift n := by
  induction ps with
  | nil => exact fun start => rfl
  | cons p ps ih =>
    intro start
    have ih := ih (start + width p.text)
    have hstop : start + n + width p.text = start + width p.text + n := Nat.add_right_comm ..
    obtain ⟨cut, text⟩ := p
    rcases cut with _ | (kind | kind)
    all_goals
      rw [ofPieces, hstop, ih]
      rfl

/-! ## What lies within a stretch -/

section Between

variable {i j : Nat}

/-- What lies within a stretch of two parts lies within the stretch in one of them. -/
theorem between_append (l m : Lexing) : (l ++ m).between i j = l.between i j ++ m.between i j := by
  show Lexing.mk ((l.tokens ++ m.tokens).filter _) ((l.trivia ++ m.trivia).filter _)
    ((l.strays ++ m.strays).filter _) = _
  rw [List.filter_append, List.filter_append, List.filter_append]
  rfl

/-- If everything lies within a stretch, what lies in the stretch is everything. -/
theorem between_eq_self {l : Lexing} (h : ∀ s ∈ l.spans, i ≤ s.1 ∧ s.2 ≤ j) :
    l.between i j = l := by
  simp only [spans, List.forall_mem_append, List.forall_mem_map] at h
  obtain ⟨⟨htokens, htrivia⟩, hstrays⟩ := h
  simp only [between]
  rw [List.filter_eq_self.mpr fun t ht => decide_eq_true (htokens t ht),
    List.filter_eq_self.mpr fun t ht => decide_eq_true (htrivia t ht),
    List.filter_eq_self.mpr fun s hs => decide_eq_true (hstrays s hs)]

theorem between_eq_empty {l : Lexing} (h : ∀ s ∈ l.spans, ¬ (i ≤ s.1 ∧ s.2 ≤ j)) :
    l.between i j = {} := by
  simp only [spans, List.forall_mem_append, List.forall_mem_map] at h
  obtain ⟨⟨htokens, htrivia⟩, hstrays⟩ := h
  simp only [between]
  rw [List.filter_eq_nil_iff.mpr fun t ht => by simpa using htokens t ht,
    List.filter_eq_nil_iff.mpr fun t ht => by simpa using htrivia t ht,
    List.filter_eq_nil_iff.mpr fun s hs => by simpa using hstrays s hs]

/-- The places of pieces lie between the start of the first and the end of the last piece. -/
theorem mem_spans_ofPieces {start : Nat} {ps : List Piece} {s : Nat × Nat}
    (hps : ∀ p ∈ ps, p.text ≠ []) (hs : s ∈ (ofPieces start ps).spans) :
    start ≤ s.1 ∧ s.1 < s.2 ∧ s.2 ≤ start + width (textOf ps) := by
  obtain ⟨pre, p, post, rfl, hstart, hstop⟩ := mem_spansFrom ((spans_perm start ps).mem_iff.mp hs)
  have hpos := width_pos (hps p (by simp))
  rw [textOf_append, textOf_cons, width_append, width_append]
  omega

/-- What lies within a stretch that some pieces cover is these pieces. -/
theorem between_ofPieces {ps qs rs : List Piece} (hne : ∀ p ∈ ps ++ qs ++ rs, p.text ≠ [])
    (hi : i = width (textOf ps)) (hj : j = width (textOf (ps ++ qs))) :
    (ofPieces 0 (ps ++ qs ++ rs)).between i j = ofPieces i qs := by
  simp only [List.forall_mem_append] at hne
  obtain ⟨⟨hps, hqs⟩, hrs⟩ := hne
  have hwidth : width (textOf (ps ++ qs)) = width (textOf ps) + width (textOf qs) := by
    rw [textOf_append, width_append]
  have hbefore : (ofPieces 0 ps).between i j = {} :=
    between_eq_empty fun s hs => by
      have := mem_spans_ofPieces hps hs
      omega
  have hwithin : (ofPieces i qs).between i j = ofPieces i qs :=
    between_eq_self fun s hs => by
      have := mem_spans_ofPieces hqs hs
      omega
  have hbehind : (ofPieces j rs).between i j = {} :=
    between_eq_empty fun s hs => by
      have := mem_spans_ofPieces hrs hs
      omega
  rw [ofPieces_append, ofPieces_append, Nat.zero_add, Nat.zero_add, ← hi, ← hj, between_append,
    between_append, hbefore, hwithin, hbehind, empty_append, append_empty]

end Between

/-! ## Cut texts -/

/-- Where a text is cut, its pieces can be divided. -/
theorem exists_pieces_of_isCut {source : String} {n : Nat} (h : (ofText source).IsCut n) :
    ∃ ps qs, pieces source.toList = ps ++ qs ∧ width (textOf ps) = n := by
  obtain ⟨s, hs, hcut⟩ := h
  obtain ⟨pre, p, post, hpieces, hstart, hstop⟩ := mem_spansFrom ((spans_perm 0 _).mem_iff.mp hs)
  rw [Nat.zero_add] at hstart
  rcases hcut with hcut | hcut
  · exact ⟨pre, p :: post, hpieces, hstart.symm.trans hcut.symm⟩
  · refine ⟨pre ++ [p], post, by rw [hpieces, List.append_assoc, List.singleton_append], ?_⟩
    rw [textOf_append, width_append, textOf_cons, textOf_nil, List.append_nil]
    omega

/-- Where a text is cut twice, its pieces can be divided twice. -/
theorem exists_pieces_of_isCut_isCut {source : String} {i j : Nat} (hi : (ofText source).IsCut i)
    (hj : (ofText source).IsCut j) (hij : i ≤ j) :
    ∃ ps qs rs, pieces source.toList = ps ++ qs ++ rs ∧
      width (textOf ps) = i ∧ width (textOf (ps ++ qs)) = j := by
  obtain ⟨ps, ps', hps, rfl⟩ := exists_pieces_of_isCut hi
  obtain ⟨qs, rs, hqs, rfl⟩ := exists_pieces_of_isCut hj
  rcases List.append_eq_append_iff.mp (hps.symm.trans hqs) with ⟨u, rfl, hrest⟩ | ⟨u, rfl, hrest⟩
  · exact ⟨ps, u, rs, hqs, rfl, rfl⟩
  · -- the first cut is not before the second, so that nothing lies between them
    have hwidth : width (textOf qs) = width (textOf (qs ++ u)) := by
      refine Nat.le_antisymm ?_ hij
      rw [textOf_append, width_append]
      omega
    refine ⟨qs ++ u, [], ps', by rw [List.append_nil, hps], rfl, ?_⟩
    rw [List.append_nil, hwidth]

/-- The pieces of a part of a text whose pieces are divided twice. -/
theorem pieces_textOf {cs : List Char} {ps qs rs : List Piece} (h : pieces cs = ps ++ qs ++ rs) :
    pieces (textOf qs) = qs := by
  have hwhole : cs = textOf ps ++ (textOf qs ++ textOf rs) := by
    rw [← textOf_append, ← textOf_append, ← List.append_assoc, ← h, textOf_pieces]
  rw [List.append_assoc, hwhole] at h
  exact (pieces_append (pieces_append h rfl).2 rfl).1

/-- A token is one of the pieces, at its place. -/
theorem mem_tokens_ofPieces {start : Nat} {ps : List Piece} {t : Token}
    (h : t ∈ (ofPieces start ps).tokens) :
    ∃ pre text post, ps = pre ++ [⟨some (.token t.kind), text⟩] ++ post ∧
    t.text = String.ofList text := by
  induction ps generalizing start with
  | nil => cases h
  | cons p ps ih =>
    have hlater (h : t ∈ (ofPieces (start + width p.text) ps).tokens) : ∃ pre text post,
        p :: ps = pre ++ [⟨some (.token t.kind), text⟩] ++ post ∧ t.text = String.ofList text := by
      obtain ⟨pre, text, post, rfl, htext⟩ := ih h
      exact ⟨p :: pre, text, post, rfl, htext⟩
    obtain ⟨cut, text⟩ := p
    rcases cut with _ | (kind | kind)
    · exact hlater h
    · rcases List.mem_cons.mp h with rfl | h
      · exact ⟨[], text, ps, rfl, rfl⟩
      · exact hlater h
    · exact hlater h

/-- The text of a token alone is cut into this token and nothing else. -/
theorem ofText_text {source : String} {t : Token} (ht : t ∈ (ofText source).tokens) :
    ofText t.text = { tokens := [⟨t.kind, 0, t.text.utf8ByteSize, t.text⟩] } := by
  obtain ⟨pre, text, post, hpieces, htext⟩ := mem_tokens_ofPieces ht
  have hpiece := pieces_textOf hpieces
  rw [textOf_cons, textOf_nil, List.append_nil] at hpiece
  rw [← width_toList, ofText, htext, String.toList_ofList, hpiece, ofPieces, Nat.zero_add]
  rfl

/-- **Lexing is local.**  A part of a text that is cut out where tokens, trivia or stray stretches
start or end has the tokens, trivia and stray stretches that lie there in the whole text, which are
further on by where the part starts.  In particular the text of a token is cut into that token
alone. -/
theorem ofText_slice (source : String) {i j : Nat} (hi : (ofText source).IsCut i)
    (hj : (ofText source).IsCut j) (hij : i ≤ j) :
    (ofText (String.ofList (slice source.toList i j))).shift i = (ofText source).between i j ∧
      ∀ t ∈ (ofText source).tokens,
        ofText t.text = { tokens := [⟨t.kind, 0, t.text.utf8ByteSize, t.text⟩] } := by
  refine ⟨?_, fun t ht => ofText_text ht⟩
  obtain ⟨ps, qs, rs, hpieces, rfl, rfl⟩ := exists_pieces_of_isCut_isCut hi hj hij
  have hslice : slice source.toList (width (textOf ps)) (width (textOf (ps ++ qs))) =
      textOf qs := by
    rw [← textOf_pieces source.toList, hpieces, textOf_append, textOf_append, slice_append]
  have hne : ∀ p ∈ ps ++ qs ++ rs, p.text ≠ [] := hpieces ▸ text_ne_nil
  rw [ofText, ofText, hslice, String.toList_ofList, pieces_textOf hpieces, hpieces,
    between_ofPieces hne rfl rfl, ← ofPieces_shift, Nat.zero_add]

/-- A part with a name that starts with a keyword, a stray character and a character of two bytes,
cut out before a comment. -/
theorem ofText_slice_keyword :
    let source := "a:and-b $é;//c"
    (ofText source).IsCut 2 ∧ (ofText source).IsCut 12 ∧
      String.ofList (slice source.toList 2 12) = "and-b $é;" ∧
      (ofText (String.ofList (slice source.toList 2 12))).shift 2 = (ofText source).between 2 12 ∧
      ∀ t ∈ (ofText source).tokens,
        ofText t.text = { tokens := [⟨t.kind, 0, t.text.utf8ByteSize, t.text⟩] } := by
  intro source
  have hi : (ofText source).IsCut 2 := ⟨(1, 2), by decide +kernel, .inr rfl⟩
  have hj : (ofText source).IsCut 12 := ⟨(12, 15), by decide +kernel, .inl rfl⟩
  exact ⟨hi, hj, by decide +kernel, ofText_slice source hi hj (by decide)⟩

end Lexing

end LessCss
