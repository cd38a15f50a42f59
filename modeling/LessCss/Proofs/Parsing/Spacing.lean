import LessCss.Proofs.Parsing.Rows

/-!
# How much space is left does not matter

Of what stands between two tokens a parse depends only on whether anything stands there.  Two texts
with the same tokens one by one, of which neighbours touch in one text where they touch in the
other, have the same parse up to the places of the tokens (`Parse.ofText_respaced`): the tokens of
the one text stand for those of the other that have the same index.
-/

namespace LessCss

/-! ## The places of tokens -/

namespace Lexing

open Lexer Text

/-- The places of the tokens are some of the places of all pieces, in their order. -/
theorem tokens_sublist (start : Nat) (ps : List Piece) :
    ((ofPieces start ps).tokens.map fun t => (t.start, t.stop)).Sublist (spansFrom start ps) := by
  induction ps generalizing start with
  | nil => exact List.Sublist.refl _
  | cons p ps ih =>
    have ih := ih (start + width p.text)
    obtain ⟨cut, text⟩ := p
    rcases cut with _ | (kind | kind)
    · exact ih.cons _
    · exact ih.cons_cons _
    · exact ih.cons _

/-- Every token ends before all later ones start. -/
theorem pairwise_tokens (source : String) :
    (ofText source).tokens.Pairwise fun t u => t.stop ≤ u.start :=
  List.pairwise_map.mp ((pairwise_spansFrom 0 _).sublist (tokens_sublist 0 _))

/-- No token is empty. -/
theorem start_lt_stop {source : String} {t : Token} (ht : t ∈ (ofText source).tokens) :
    t.start < t.stop := by
  have hspan : (t.start, t.stop) ∈ (ofText source).spans := by
    simp only [spans, List.mem_append, List.mem_map]
    exact .inl (.inl ⟨t, ht, rfl⟩)
  exact (partitions_ofText source).nonempty _ hspan

/-- No token comes twice. -/
theorem nodup_tokens (source : String) : (ofText source).tokens.Nodup := by
  refine (pairwise_tokens source).imp_of_mem fun {t u} ht _ hle heq => ?_
  have hlt := start_lt_stop ht
  rw [heq] at hle hlt
  omega

end Lexing

/-! ## Parses up to the places of tokens -/

/-- A tree with the indices of tokens in their place. -/
inductive Outline
  | leaf (index : Nat)
  | node (phrase : Phrase) (children : List Outline)

namespace Tree

mutual
/-- A tree with each token replaced by its index in a row. -/
def outline (tokens : List Token) : Tree → Outline
  | leaf t => .leaf (tokens.idxOf t)
  | node p ts => .node p (outlines tokens ts)
/-- The same for every tree of a row. -/
def outlines (tokens : List Token) : List Tree → List Outline
  | [] => []
  | t :: ts => outline tokens t :: outlines tokens ts
end

mutual
/-- A tree has the same outline if each token goes to one of the same index. -/
theorem outline_map {tokens tokens' : List Token} {f : Token → Token}
    (hf : ∀ t ∈ tokens, tokens'.idxOf (f t) = tokens.idxOf t) {t : Tree}
    (ht : ∀ x ∈ t.leaves, x ∈ tokens) :
    (t.map f).outline tokens' = t.outline tokens := by
  cases t with
  | leaf x => exact congrArg Outline.leaf (hf x (ht x List.mem_cons_self))
  | node p ts => exact congrArg (Outline.node p) (outlines_map hf ht)
theorem outlines_map {tokens tokens' : List Token} {f : Token → Token}
    (hf : ∀ t ∈ tokens, tokens'.idxOf (f t) = tokens.idxOf t) {ts : List Tree}
    (hts : ∀ x ∈ leavesOf ts, x ∈ tokens) :
    outlines tokens' (mapAll f ts) = outlines tokens ts := by
  cases ts with
  | nil => rfl
  | cons t ts =>
    obtain ⟨ht, hts⟩ := List.forall_mem_append.mp hts
    rw [mapAll, outlines, outlines, outline_map hf ht, outlines_map hf hts]
end

end Tree

/-- Two mismatches, in texts with the given tokens, are about tokens of one index, or both about the
end. -/
def Mismatch.SamePlace (tokens tokens' : List Token) (m m' : Mismatch) : Prop :=
  m.found = none ∧ m'.found = none ∨
    ∃ (i : Nat) (t t' : Token), tokens[i]? = some t ∧ tokens'[i]? = some t' ∧ m.found = some t ∧
      m'.found = some t'

/-- For each token but the last, whether it ends where the next one starts. -/
def touching (tokens : List Token) : List Bool :=
  List.zipWith (fun t u => t.stop == u.start) tokens tokens.tail

/-- Two rows of tokens are the same but for the places of the tokens, and neighbours touch in one
where they touch in the other. -/
structure Respaced (tokens tokens' : List Token) : Prop where
  same : tokens.map (fun t => (t.kind, t.text)) = tokens'.map fun t => (t.kind, t.text)
  touching : touching tokens = touching tokens'

namespace Respaced

variable {tokens tokens' : List Token}

/-- Each token goes to the token of the same index. -/
def transfer (tokens tokens' : List Token) : Transfer where
  start t := (tokens'.getD (tokens.idxOf t) default).start
  stop t := (tokens'.getD (tokens.idxOf t) default).stop
  tail := []

theorem length_eq (h : Respaced tokens tokens') : tokens.length = tokens'.length := by
  simpa using congrArg List.length h.same

/-- Tokens of one index have the same kind and text. -/
theorem same_at (h : Respaced tokens tokens') {i : Nat} {t t' : Token} (ht : tokens[i]? = some t)
    (ht' : tokens'[i]? = some t') : t.kind = t'.kind ∧ t.text = t'.text := by
  have hsame := congrArg (·[i]?) h.same
  simp only [List.getElem?_map, ht, ht', Option.map_some, Option.some.injEq, Prod.mk.injEq] at hsame
  exact hsame

theorem exists_at (h : Respaced tokens tokens') {i : Nat} {t : Token} (ht : tokens[i]? = some t) :
    ∃ t', tokens'[i]? = some t' := by
  obtain ⟨hi, _⟩ := List.getElem?_eq_some_iff.mp ht
  exact ⟨_, List.getElem?_eq_getElem (h.length_eq ▸ hi)⟩

/-- Neighbours touch in one row where those of the same indices touch in the other. -/
theorem touching_at (h : Respaced tokens tokens') {i : Nat} {t u t' u' : Token}
    (ht : tokens[i]? = some t) (hu : tokens[i + 1]? = some u) (ht' : tokens'[i]? = some t')
    (hu' : tokens'[i + 1]? = some u') :
    t.stop = u.start ↔ t'.stop = u'.start := by
  have htouching := congrArg (·[i]?) h.touching
  simp only [LessCss.touching, List.getElem?_zipWith, List.getElem?_tail, ht, hu, ht',
    hu'] at htouching
  simpa using htouching

variable (h : Respaced tokens tokens') (hnodup : tokens.Nodup)

include h hnodup

/-- A token goes to the token of its index. -/
theorem transfer_token {i : Nat} {t t' : Token} (ht : tokens[i]? = some t)
    (ht' : tokens'[i]? = some t') :
    (transfer tokens tokens').token t = t' := by
  obtain ⟨hi, rfl⟩ := List.getElem?_eq_some_iff.mp ht
  have hget : tokens'.getD (tokens.idxOf tokens[i]) default = t' := by
    rw [hnodup.idxOf_getElem i hi, List.getD_eq_getElem?_getD, ht', Option.getD_some]
  obtain ⟨hkind, htext⟩ := h.same_at ht ht'
  simp only [Transfer.token, transfer, hget, hkind, htext]

/-- All tokens together go to the other row. -/
theorem map_transfer : tokens.map (transfer tokens tokens').token = tokens' := by
  refine List.ext_getElem? fun i => ?_
  rw [List.getElem?_map]
  cases ht : tokens[i]? with
  | none =>
    rw [List.getElem?_eq_none_iff, h.length_eq] at ht
    exact (List.getElem?_eq_none_iff.mpr ht).symm
  | some t =>
    obtain ⟨t', ht'⟩ := h.exists_at ht
    rw [ht', Option.map_some, h.transfer_token hnodup ht ht']

/-- Tokens that touch or do not in one text do so in the other, and tokens that do not touch have
something between them, as they come in order. -/
theorem spaced_transfer (hordered : tokens.Pairwise fun t u => t.stop ≤ u.start)
    (hordered' : tokens'.Pairwise fun t u => t.stop ≤ u.start) :
    tokens.IsChain (transfer tokens tokens').Spaced := by
  refine List.isChain_iff_getElem.mpr fun i hi => ?_
  have hi' : i + 1 < tokens'.length := h.length_eq ▸ hi
  have ht := List.getElem?_eq_getElem (Nat.lt_of_succ_lt hi)
  have hu := List.getElem?_eq_getElem hi
  have ht' := List.getElem?_eq_getElem (Nat.lt_of_succ_lt hi')
  have hu' := List.getElem?_eq_getElem hi'
  have htouching := h.touching_at ht hu ht' hu'
  have hle := List.pairwise_iff_getElem.mp hordered i (i + 1) (Nat.lt_of_succ_lt hi) hi
      (Nat.lt_succ_self i)
  have hle' := List.pairwise_iff_getElem.mp hordered' i (i + 1) (Nat.lt_of_succ_lt hi') hi'
      (Nat.lt_succ_self i)
  have hstop := congrArg Token.stop (h.transfer_token hnodup ht ht')
  have hstart := congrArg Token.start (h.transfer_token hnodup hu hu')
  change (transfer tokens tokens').stop _ = _ at hstop
  change (transfer tokens tokens').start _ = _ at hstart
  rw [Transfer.Spaced, hstop, hstart]
  omega

/-- A token keeps its index. -/
theorem idxOf_transfer (hnodup' : tokens'.Nodup) {t : Token} (ht : t ∈ tokens) :
    tokens'.idxOf ((transfer tokens tokens').token t) = tokens.idxOf t := by
  obtain ⟨i, hi, rfl⟩ := List.mem_iff_getElem.mp ht
  have hi' : i < tokens'.length := h.length_eq ▸ hi
  rw [h.transfer_token hnodup (List.getElem?_eq_getElem hi) (List.getElem?_eq_getElem hi'),
    hnodup'.idxOf_getElem i hi', hnodup.idxOf_getElem i hi]

end Respaced

namespace Parse

open LessCss.Parser LessCss.Transfer

/-- What a mismatch is about is among the tokens.  If it were not, moving what is not among the
tokens would change nothing for the parser and yet move it. -/
theorem found_mem_tokens {tokens : List Token} {m : Mismatch} (hm : m ∈ (ofTokens tokens).noted)
    {t : Token} (ht : m.found = some t) : t ∈ tokens := by
  let x : Transfer := ⟨fun t => if t ∈ tokens then t.start else t.start + 1, Token.stop, []⟩
  have hstay {t : Token} (ht : t ∈ tokens) : x.token t = t := by
    simp only [Transfer.token, x, if_pos ht]
  have hmap : tokens.map x.token = tokens :=
    (List.map_congr_left fun t => hstay).trans (List.map_id _)
  have hspaced : tokens.IsChain x.Spaced := by
    refine List.Pairwise.isChain
      (List.Pairwise.imp_of_mem ?_ (List.pairwise_of_forall fun _ _ => trivial))
    intro t u _ hu _
    simp [Spaced, x, hu]
  have hsame := ofTokens_mirrors (x := x) rfl hspaced (Nat.le_refl _) (Nat.le_refl _) none
  rw [hmap] at hsame
  have hnoted : (ofTokens tokens).noted.map id = (ofTokens tokens).noted.map x.mismatch :=
    (List.map_id _).trans hsame.noted
  have hfound := congrArg Mismatch.found (List.map_inj_left.mp hnoted m hm)
  rw [id, mismatch, ht, Option.map_some, Option.some.injEq] at hfound
  by_contra hnot
  have hstart := congrArg Token.start hfound
  simp only [Transfer.token, x, if_neg hnot] at hstart
  omega

/-- **Parsing does not depend on how much space there is between tokens.**  If two texts have the
same tokens one by one, and neighbours touch in one text where they touch in the other, then their
trees are the same up to the places of tokens, and so are the mismatches noted against them. -/
theorem ofText_respaced (source source' : String)
    (h : Respaced (Lexing.ofText source).tokens (Lexing.ofText source').tokens) :
    (ofText source').tree.outline (Lexing.ofText source').tokens =
        (ofText source).tree.outline (Lexing.ofText source).tokens ∧
      List.Forall₂ (fun m m' : Mismatch => m.complaint = m'.complaint ∧ m.wanted = m'.wanted ∧
        m.SamePlace (Lexing.ofText source).tokens (Lexing.ofText source').tokens m')
        (ofText source).mismatches (ofText source').mismatches := by
  let x := Respaced.transfer (Lexing.ofText source).tokens (Lexing.ofText source').tokens
  have hnodup := Lexing.nodup_tokens source
  have hspaced :=
    h.spaced_transfer hnodup (Lexing.pairwise_tokens source) (Lexing.pairwise_tokens source')
  have hlength := Nat.le_of_eq h.length_eq
  have hsame := ofTokens_mirrors (x := x) rfl hspaced hlength hlength none
  rw [h.map_transfer hnodup] at hsame
  constructor
  · have htree : (ofText source').tree = x.tree (ofText source).tree := by
      rw [ofText, ofText, tree_node]
      exact congrArg _ hsame.statements
    rw [htree]
    exact Tree.outline_map (fun t ht => h.idxOf_transfer hnodup (Lexing.nodup_tokens source') ht)
      fun t ht => (leaves_sublist_tokens source).subset ht
  · have hnoted : (ofText source').mismatches = (ofText source).mismatches.map x.mismatch :=
      hsame.noted
    rw [hnoted, List.forall₂_map_right_iff, List.forall₂_same]
    intro m hm
    refine ⟨(x.complaint_mismatch m).symm, rfl, ?_⟩
    cases hfound : m.found with
    | none => exact .inl ⟨hfound, by rw [mismatch, hfound]; rfl⟩
    | some t =>
      obtain ⟨i, hi, rfl⟩ := List.mem_iff_getElem.mp (found_mem_tokens hm hfound)
      have ht := List.getElem?_eq_getElem hi
      obtain ⟨t', ht'⟩ := h.exists_at ht
      refine .inr ⟨i, _, t', ht, ht', hfound, ?_⟩
      rw [mismatch, hfound, Option.map_some, h.transfer_token hnodup ht ht']

/-- A comment in the place of a blank, and a sign behind blanks, in texts that break off. -/
theorem ofText_respaced_comment :
    (ofText "a \x7bb:1 -2;\n c").mismatches.isEmpty = false ∧
      (ofText "a/**/\x7bb:1  -2; c").tree.outline (Lexing.ofText "a/**/\x7bb:1  -2; c").tokens =
        (ofText "a \x7bb:1 -2;\n c").tree.outline (Lexing.ofText "a \x7bb:1 -2;\n c").tokens ∧
      List.Forall₂ (fun m m' : Mismatch => m.complaint = m'.complaint ∧ m.wanted = m'.wanted ∧
        m.SamePlace (Lexing.ofText "a \x7bb:1 -2;\n c").tokens
          (Lexing.ofText "a/**/\x7bb:1  -2; c").tokens m')
        (ofText "a \x7bb:1 -2;\n c").mismatches (ofText "a/**/\x7bb:1  -2; c").mismatches :=
  ⟨by decide +kernel, ofText_respaced _ _ ⟨by decide +kernel, by decide +kernel⟩⟩

end Parse

end LessCss
