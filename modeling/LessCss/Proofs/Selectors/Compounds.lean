import LessCss.Proofs.Lexing.Joining
import LessCss.Proofs.Lexing.Parts
import LessCss.Proofs.Selectors.Located

/-!
# The pieces of elements

An element that was read is the text of some pieces of the source, which start and end with a token
(`Lexer.Compound`). Wherever these pieces stand, a simple selector is found there, if nothing
follows that it would go on with (`Lexer.Compound.found`).  The elements of a selector are such
pieces, one after the other (`Lexer.Woven`).
-/

namespace LessCss

open Lexer Text

namespace Lexing

/-- Tokens further on are those of the same pieces. -/
theorem tokens_ofPieces_add (start n : Nat) (ps : List Piece) :
    (ofPieces (start + n) ps).tokens = (ofPieces start ps).tokens.map (Token.shift n) := by
  rw [ofPieces_shift]
  rfl

/-- The tokens of pieces side by side are those of the first and, further on, those of the
second. -/
theorem tokens_append_pieces (start : Nat) (ps qs : List Piece) :
    (ofPieces start (ps ++ qs)).tokens =
    (ofPieces start ps).tokens ++ (ofPieces (start + width (textOf ps)) qs).tokens := by
  rw [ofPieces_append]
  rfl

theorem tokens_token (start : Nat) (k : Kind) (text : List Char) (ps : List Piece) :
    (ofPieces start (⟨some (.token k), text⟩ :: ps)).tokens =
      ⟨k, start, start + width text, String.ofList text⟩ ::
      (ofPieces (start + width text) ps).tokens := rfl

/-- There are no stray stretches where every piece is a token or trivia. -/
theorem strays_ofPieces {start : Nat} {ps : List Piece} :
    (ofPieces start ps).strays = [] ↔ ∀ p ∈ ps, p.cut ≠ none := by
  induction ps generalizing start with
  | nil => exact ⟨nofun, fun _ => rfl⟩
  | cons p ps ih =>
    obtain ⟨cut, text⟩ := p
    rw [List.forall_mem_cons]
    rcases cut with _ | (kind | kind)
    · exact ⟨nofun, fun h => absurd rfl h.1⟩
    · exact ih.trans (and_iff_right nofun).symm
    · exact ih.trans (and_iff_right nofun).symm

/-- Where the tokens of some pieces are divided, so are the pieces. -/
theorem exists_pieces_of_tokens {ps : List Piece} {start : Nat} {ts us : List Token} {t : Token}
    (h : (ofPieces start ps).tokens = ts ++ t :: us) :
    ∃ qs rs, ps = qs ++ ⟨some (.token t.kind), t.text.toList⟩ :: rs ∧
    (ofPieces start qs).tokens = ts ∧
      t.start = start + width (textOf qs) ∧ t.stop = t.start + width t.text.toList ∧
      (ofPieces t.stop rs).tokens = us := by
  induction ps generalizing start ts with
  | nil => simp [ofPieces] at h
  | cons p ps ih =>
    obtain ⟨cut, text⟩ := p
    have hlater {ts' : List Token} (h : (ofPieces (start + width text) ps).tokens = ts' ++ t :: us)
        (hts : ∀ qs, (ofPieces start (⟨cut, text⟩ :: qs)).tokens = ts ↔
          (ofPieces (start + width text) qs).tokens = ts') :
        ∃ qs rs, ⟨cut, text⟩ :: ps = qs ++ ⟨some (.token t.kind), t.text.toList⟩ :: rs ∧
          (ofPieces start qs).tokens = ts ∧ t.start = start + width (textOf qs) ∧
          t.stop = t.start + width t.text.toList ∧ (ofPieces t.stop rs).tokens = us := by
      obtain ⟨qs, rs, rfl, hqs, hstart, hstop, hrs⟩ := ih h
      refine ⟨⟨cut, text⟩ :: qs, rs, rfl, (hts qs).mpr hqs, ?_, hstop, hrs⟩
      rw [hstart, textOf_cons, width_append, Nat.add_assoc]
    rcases cut with _ | (kind | kind)
    · exact hlater h fun _ => Iff.rfl
    · cases ts with
      | nil =>
        obtain ⟨rfl, hrest⟩ := List.cons.inj h
        refine ⟨[], ps, ?_, rfl, rfl, ?_, hrest⟩
        · simp
        · simp
      | cons u ts =>
        obtain ⟨hu, hrest⟩ := List.cons.inj h
        refine hlater hrest fun qs => ?_
        rw [tokens_token, List.cons.injEq, and_iff_right hu]
    · exact hlater h fun _ => Iff.rfl

end Lexing

namespace Lexer

/-! ## Simple selectors in pieces -/

/-- Pieces that start and end with a token, and that were found to be a simple selector somewhere,
and what follows them there. -/
structure Compound (qs : List Piece) (rest : List Char) : Prop extends Fragment qs rest where
  first : ∃ k text ps, qs = ⟨some (.token k), text⟩ :: ps
  simple : ∃ (u : Tree) (start : Nat), u.IsSimple ∧ u.leaves = (Lexing.ofPieces start qs).tokens

namespace Compound

variable {qs : List Piece} {rest : List Char}

/-- The first token of a simple selector is one with which selectors start. -/
theorem starts (h : Compound qs rest) :
    ∃ k text ps, qs = ⟨some (.token k), text⟩ :: ps ∧
    (Parser.first .selector).contains k = true := by
  obtain ⟨k, text, ps, rfl⟩ := h.first
  obtain ⟨u, start, hsimple, hleaves⟩ := h.simple
  obtain ⟨x, hx, hstarts⟩ := hsimple.starts
  rw [hleaves, Lexing.tokens_token, List.head?_cons, Option.mem_some_iff] at hx
  subst hx
  exact ⟨k, text, ps, rfl, hstarts⟩

/-- **The pieces are a simple selector wherever they stand**, unless a token touches them with which
it would go on. -/
theorem found (h : Compound qs rest) (n : Nat) (previous : Option Token) {tail : List Token}
    (htail : ∀ t ∈ tail.head?, t.start = n + width (textOf qs) →
      t.kind ∈ [Kind.greater, .plus, .tilde, .leftBrace]) :
    ∃ (v : Tree) (last : Token), v.leaves = (Lexing.ofPieces n qs).tokens ∧
    last.stop = n + width (textOf qs) ∧
      Parser.simpleSelector ⟨previous, (Lexing.ofPieces n qs).tokens ++ tail⟩ = .found v
        ⟨some last, tail⟩ := by
  obtain ⟨u, start, ⟨c, next, hfound⟩, hleaves⟩ := h.simple
  obtain ⟨ps, k, text, hqs⟩ := h.last
  -- the tokens are moved from the place in the source to the place here, with the same gaps between
  -- them
  let x : Transfer := ⟨fun t => t.start - start + n, fun t => t.stop - start + n, tail⟩
  have htokens (m : Nat) : (Lexing.ofPieces m qs).tokens = (Lexing.ofPieces 0 qs).tokens.map
      (Token.shift m) := by
    rw [← Lexing.tokens_ofPieces_add, Nat.zero_add]
  have hmap : u.leaves.map x.token = (Lexing.ofPieces n qs).tokens := by
    rw [hleaves, htokens start, htokens n, List.map_map]
    refine List.map_congr_left fun t _ => ?_
    simp [x, Transfer.token, Token.shift]
  have hspaced : u.leaves.IsChain x.Spaced := by
    rw [hleaves, htokens start, List.isChain_map]
    refine (List.pairwise_of_forall fun t u => ?_).isChain
    simp only [x, Transfer.Spaced, Token.shift]
    omega
  let last : Token :=
    ⟨k, start + width (textOf ps), start + width (textOf ps) + width text, String.ofList text⟩
  have hlast : u.leaves.getLast? = some last := by
    rw [hleaves, hqs, Lexing.tokens_append_pieces, Lexing.tokens_token]
    simp [Lexing.ofPieces, last]
  have hstop : x.stop last = n + width (textOf qs) := by
    rw [hqs, textOf_append, width_append, textOf_cons, textOf_nil, List.append_nil]
    simp only [x, last]
    omega
  have hagain := Parser.simpleSelector_again hfound x hspaced hlast
    (fun t ht htouch => htail t ht (htouch.trans hstop)) previous
  rw [hmap] at hagain
  exact ⟨x.tree u, x.token last, (Tree.leaves_map x.token u).trans hmap, hstop, hagain⟩

/-- A simple selector that spells the pieces has their text. -/
theorem sourceText_eq (h : Compound qs rest) {n : Nat} {v : Tree}
    (hleaves : v.leaves = (Lexing.ofPieces n qs).tokens) {a b : List Char} (ha : width a = n) :
    v.sourceText (a ++ textOf qs ++ b) = String.ofList (textOf qs) := by
  obtain ⟨k, text, qs', hfirst⟩ := h.first
  obtain ⟨ps, k', text', hlast⟩ := h.last
  have hhead : v.firstToken? = some ⟨k, n, n + width text, String.ofList text⟩ := by
    rw [Tree.firstToken?_eq, hleaves, hfirst]
    rfl
  have hend : ∃ t, v.lastToken? = some t ∧ t.stop = n + width (textOf qs) := by
    rw [Tree.lastToken?_eq, hleaves, hlast, Lexing.tokens_append_pieces, Lexing.tokens_token,
      textOf_append, width_append, textOf_cons, textOf_nil, List.append_nil]
    exact ⟨_, List.getLast?_concat .., Nat.add_assoc ..⟩
  obtain ⟨t, hend, hstop⟩ := hend
  rw [Tree.sourceText, hhead, hend]
  subst ha
  dsimp only
  rw [hstop, ← width_append, slice_append]

end Compound

/-! ## Elements in pieces -/

/-- The texts of elements are those of simple selectors that stand one after the other in a text. -/
inductive Woven : List Char → List Element → Prop
  | nil (cs : List Char) : Woven cs []
  | cons {qs : List Piece} {a rest : List Char} {e : Element} {es : List Element}
    (h : Compound qs rest)
    (htext : e.text.toList = textOf qs) (hrest : Woven rest es) :
      Woven (a ++ textOf qs ++ rest) (e :: es)

/-- If tokens close their functions, a parenthesis is closed behind every function among the
pieces. -/
theorem closed_of_tokens {qs : List Piece} {n : Nat} (h : Closed (Lexing.ofPieces n qs).tokens)
    (ps : List Piece) (text : List Char) (post : List Piece)
    (hqs : qs = ps ++ ⟨some (.token .function), text⟩ :: post) :
    ∃ text, ⟨some (.token .rightParen), text⟩ ∈ post := by
  rw [hqs, Lexing.tokens_append_pieces, Lexing.tokens_token] at h
  obtain ⟨t, ht, hkind⟩ := h _ _ _ rfl rfl
  obtain ⟨before, text, behind, rfl, -⟩ := Lexing.mem_tokens_ofPieces ht
  exact ⟨text, by simp [hkind]⟩

/-- A simple selector among the tokens of some pieces has pieces of its own, from its first token to
its last. -/
theorem exists_compound {ps : List Piece} {start : Nat} {u : Tree} {pre post : List Token}
    (hsimple : u.IsSimple) (htokens : (Lexing.ofPieces start ps).tokens = pre ++ u.leaves ++ post)
    (hpieces : pieces (textOf ps) = ps) (hknown : ∀ p ∈ ps, p.cut ≠ none) :
    ∃ as qs bs, ps = as ++ qs ++ bs ∧ Compound qs (textOf bs) ∧ pieces (textOf bs) = bs ∧
      u.leaves = (Lexing.ofPieces (start + width (textOf as)) qs).tokens ∧
      post = (Lexing.ofPieces (start + width (textOf (as ++ qs))) bs).tokens := by
  obtain ⟨first, others, hfirst⟩ := List.exists_cons_of_ne_nil hsimple.leaves_ne_nil
  obtain ⟨init, last, hlast⟩ : ∃ init last, u.leaves = init ++ [last] :=
    ⟨_, _, (List.dropLast_append_getLast hsimple.leaves_ne_nil).symm⟩
  have htokens' := htokens
  rw [hfirst, List.append_assoc, List.cons_append] at htokens'
  obtain ⟨as, rest, rfl, has, hstart, hstop, hrest⟩ := Lexing.exists_pieces_of_tokens htokens'
  -- the first and the last token may be the same
  have hbehind :
      (Lexing.ofPieces first.start (⟨some (.token first.kind), first.text.toList⟩ :: rest)).tokens =
      init ++ last :: post := by
    rw [Lexing.tokens_token, ← hstop, hrest, String.ofList_toList, ← List.cons_append, ←
      hfirst, hlast, List.append_assoc, List.singleton_append]
  obtain ⟨cs, bs, hcs, hinit, hlastStart, hlastStop, hpost⟩ :=
    Lexing.exists_pieces_of_tokens hbehind
  have hqs : cs ++ ⟨some (.token last.kind), last.text.toList⟩ :: bs =
      (cs ++ [⟨some (.token last.kind), last.text.toList⟩]) ++ bs := by simp
  rw [hcs, hqs, ← List.append_assoc] at hpieces hknown ⊢
  rw [List.append_assoc] at hpieces
  rw [textOf_append] at hpieces
  have hinner := (pieces_append hpieces rfl).2
  rw [textOf_append] at hinner
  have hbs := (pieces_append hinner rfl).2
  have hleaves : u.leaves = (Lexing.ofPieces (start + width (textOf as))
      (cs ++ [⟨some (.token last.kind), last.text.toList⟩])).tokens := by
    rw [← hstart, Lexing.tokens_append_pieces, hinit,
      Lexing.tokens_token, ← hlastStart, ← hlastStop, String.ofList_toList, hlast]
    rfl
  refine ⟨as, _, bs, rfl, ⟨⟨?_, ?_, ⟨cs, _, _, rfl⟩, ?_⟩, ?_, u, _, hsimple, hleaves⟩, hbs,
    hleaves, ?_⟩
  · rw [hinner, hbs]
  · exact fun q hq => hknown q (List.mem_append_left _ (List.mem_append_right _ hq))
  · exact closed_of_tokens (hleaves ▸ hsimple.closed)
  · cases cs with
    | nil => exact ⟨_, _, _, rfl⟩
    | cons p cs =>
      obtain ⟨rfl, -⟩ := List.cons.inj hcs
      exact ⟨_, _, _, rfl⟩
  · rw [← hpost, hlastStop, hlastStart, hstart]
    simp only [textOf_append, width_append, textOf_cons, textOf_nil, List.append_nil, Nat.add_assoc]

/-- Elements that stand among the tokens of some pieces are woven in their text. -/
theorem woven_of_located {source : List Char} {tokens rest : List Token} {es : List Element}
    (h : Located source tokens es rest) : ∀ (ps : List Piece) (before : List Char),
      source = before ++ textOf ps → (Lexing.ofPieces (width before) ps).tokens = tokens →
      pieces (textOf ps) = ps → (∀ p ∈ ps, p.cut ≠ none) → Woven (textOf ps) es := by
  induction h with
  | nil h => exact fun ps _ _ _ _ _ => .nil _
  | @cons u pre post rest e es hsimple htext hrest ih =>
    intro ps before hsource htokens hpieces hknown
    obtain ⟨as, qs, bs, rfl, hcompound, hbs, hleaves, hpost⟩ :=
      exists_compound hsimple htokens hpieces hknown
    have hwhole : textOf (as ++ qs ++ bs) = textOf as ++ textOf qs ++ textOf bs := by
      rw [textOf_append, textOf_append]
    rw [← width_append] at hleaves hpost
    rw [hwhole] at hsource ⊢
    have htext : e.text.toList = textOf qs := by
      have hassoc : source = before ++ textOf as ++ textOf qs ++ textOf bs := by
        rw [hsource]
        simp
      rw [htext, hassoc, hcompound.sourceText_eq hleaves rfl, String.toList_ofList]
    refine .cons hcompound htext (ih bs (before ++ textOf (as ++ qs)) ?_ hpost.symm hbs ?_)
    · rw [hsource, textOf_append]
      simp
    · exact fun p hp => hknown p (List.mem_append_right _ hp)

end Lexer

end LessCss
