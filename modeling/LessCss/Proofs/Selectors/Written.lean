import LessCss.Proofs.Selectors.Compounds

/-!
# Selectors in writing

A selector that is written before a block is cut into the pieces of its elements again, with those
of the combinators between them (`Lexer.Written`, `Lexer.Woven.pieces_behind`).  There is one
exception: a blank that is written behind an escape of digits belongs to the escape
(`Selector.losesBlank`).

Around a sign blanks are written or not, and neither matters: no element starts with a character
that would make another token of the sign (`Lexer.Compound.exists_cons`), and no comment of an
element is open at its end (`Lexer.Woven.comment_of_behind`).
-/

namespace LessCss

open Lexer

namespace Lexer

/-- The piece of one blank. -/
def space : Piece := ⟨some (.trivia .blank), [' ']⟩

/-- The pieces of an empty block. -/
def emptyBlock : List Piece :=
  [⟨some (.token .leftBrace), ['\x7b']⟩, ⟨some (.token .rightBrace), ['\x7d']⟩]

theorem pieces_emptyBlock : pieces (textOf emptyBlock) = emptyBlock := by decide +kernel

/-- A blank before something else is a piece of its own. -/
theorem pieces_space {d : Char} (hd : isBlank d = false) (w : List Char) :
    pieces (' ' :: d :: w) = space :: pieces (d :: w) := by
  have hmatch : triviaPattern .blank (' ' :: d :: w) = some 1 := by
    rw [blank_eq_some, List.takeWhile_cons_of_pos rfl, List.takeWhile_cons_of_neg (by simp [hd])]
    exact ⟨Nat.one_ne_zero, rfl⟩
  exact pieces_of_cut? (n := 0) (cut?_of_trivia [] rfl hmatch nofun)

/-- A tilde is no part of a comparison, unless an equals sign follows it. -/
theorem cut?_tilde {d : Char} (hd : d ≠ '=') (w : List Char) :
    cut? ('~' :: d :: w) = some (.token .tilde, 1) := by
  have hnone : patternOf .attributeMatch ('~' :: d :: w) = none := by
    by_contra hsome
    obtain ⟨n, hn⟩ := Option.ne_none_iff_exists'.mp hsome
    replace hn : Pattern.seq (Pattern.optional _) (Pattern.just '=') ('~' :: d :: w) = some n := hn
    obtain ⟨i, j, hi, hj, -⟩ := Pattern.seq_eq_some.mp hn
    cases hi
    obtain ⟨v, hv, -⟩ := Pattern.just_eq_some.mp hj
    exact hd (List.cons.inj hv).1
  have hmatch : (Rule.ofKind .attributeMatch).cut? ('~' :: d :: w) = none := by
    simp only [Rule.cut?, Rule.ofKind, hnone]
  have hrules : rules = (rules.takeWhile fun r => r.cut != .token .attributeMatch) ++
      Rule.ofKind .attributeMatch ::
        (rules.dropWhile fun r => r.cut != .token .attributeMatch).tail := rfl
  rw [cut?, hrules, List.findSome?_append, List.findSome?_cons, hmatch]
  rfl

/-- No element starts with a blank or an equals sign. -/
theorem Compound.exists_cons {qs : List Piece} {rest : List Char} (h : Compound qs rest) :
    ∃ d w, textOf qs = d :: w ∧ isBlank d = false ∧ d ≠ '=' := by
  obtain ⟨k, text, ps, rfl, hstarts⟩ := h.starts
  obtain ⟨d, w, htext⟩ := h.toFragment.exists_cons
  obtain ⟨x, hx, hcut⟩ := h.cut?_textOf
  cases hx
  rw [htext] at hcut
  refine ⟨d, w, htext, isBlank_of_token hcut, ?_⟩
  rintro rfl
  have hequals : cut? ('=' :: w) = some (.token .attributeMatch, 1) := rfl
  obtain ⟨hkind, -⟩ := Prod.mk.inj (Option.some.inj (hequals.symm.trans hcut))
  cases hkind
  exact absurd hstarts (by decide)

end Lexer

/-! ## Combinators -/

namespace Combinator

/-- The token of a combinator that has a sign. -/
def sign? : Combinator → Option (Kind × Char)
  | none | descendant => .none
  | child => some (.greater, '>')
  | adjacent => some (.plus, '+')
  | sibling => some (.tilde, '~')

/-- What is written between two elements, in pieces. -/
def written (compress : Bool) (c : Combinator) : List Piece :=
  match c.sign? with
  | .none => [space]
  | some (k, sign) =>
    if compress then [⟨some (.token k), [sign]⟩] else [space, ⟨some (.token k), [sign]⟩, space]

variable {c : Combinator}

/-- Only a descendant has no sign. -/
theorem eq_descendant (hc : c ≠ .none) (h : c.sign? = .none) : c = .descendant := by
  cases c with
  | none => exact absurd rfl hc
  | descendant => rfl
  | child | adjacent | sibling => cases h

/-- What is written between two elements has the text of the combinator. -/
theorem text_eq (hc : c ≠ .none) (compress : Bool) :
    (c.text compress false).toList = textOf (c.written compress) := by
  cases c with
  | none => exact absurd rfl hc
  | _ => cases compress <;> rfl

/-- What is written between two elements starts with a separator, and has nothing else in it. -/
theorem written_starts (c : Combinator) (compress : Bool) :
    ∃ d w, textOf (c.written compress) = d :: w ∧
    d :: w ⊆ separators := by
  cases c <;> cases compress <;> exact ⟨_, _, rfl, by simp [separators, space]⟩

/-- A sign is cut off as a token of its own. -/
theorem pieces_sign {k : Kind} {sign d : Char} (h : c.sign? = some (k, sign)) (hd : d ≠ '=')
    (w : List Char) :
    pieces (sign :: d :: w) = ⟨some (.token k), [sign]⟩ :: pieces (d :: w) := by
  refine pieces_of_cut? (n := 0) ?_
  cases c with
  | none | descendant => cases h
  | child | adjacent =>
    cases h
    rfl
  | sibling =>
    cases h
    exact cut?_tilde hd w

/-- The sign of a combinator stands between blanks or between nothing. -/
theorem written_sign {k : Kind} {sign : Char} (h : c.sign? = some (k, sign)) (compress : Bool) :
    ∃ pre post, c.written compress = pre ++ ⟨some (.token k), [sign]⟩ :: post ∧
      (∀ n, (Lexing.ofPieces n pre).tokens = []) ∧ ∀ n, (Lexing.ofPieces n post).tokens = [] := by
  rw [written, h]
  cases compress with
  | true => exact ⟨[], [], rfl, fun _ => rfl, fun _ => rfl⟩
  | false => exact ⟨[space], [space], rfl, fun _ => rfl, fun _ => rfl⟩

/-- The token of a sign is read as the combinator that it is the sign of. -/
theorem ofSymbol_sign {k : Kind} {sign : Char} (h : c.sign? = some (k, sign)) :
    ofSymbol (String.ofList [sign]) = c ∧ (Parser.first .combinator).contains k = true ∧
      k ∈ [Kind.greater, .plus, .tilde, .leftBrace] := by
  cases c <;> cases h <;> decide

/-- What is written before an element is cut off as it was written. -/
theorem pieces_written (c : Combinator) (compress : Bool) {d : Char} (hblank : isBlank d = false)
    (hd : d ≠ '=') (w : List Char) :
    pieces (textOf (c.written compress) ++ d :: w) = c.written compress ++ pieces (d :: w) := by
  unfold written
  cases hsign : c.sign? with
  | none => exact pieces_space hblank w
  | some x =>
    obtain ⟨k, sign⟩ := x
    have hplain : isBlank sign = false := by cases c <;> cases hsign <;> rfl
    cases compress with
    | true => exact pieces_sign hsign hd w
    | false =>
      change pieces (' ' :: sign :: ' ' :: d :: w) = space :: ⟨some (.token k), [sign]⟩ :: space ::
        pieces (d :: w)
      rw [pieces_space hplain, pieces_sign hsign (by decide), pieces_space hblank]

end Combinator

/-! ## Elements -/

namespace Selector

/-- Whether an element ends in an escape of digits and a blank is written behind it.  The blank
belongs to the escape then, and separates nothing. -/
def losesBlank (compress : Bool) : List Element → Bool
  | e :: f :: es =>
    endsInEscape e.text.toList && (f.combinator.text compress false).toList.head? == some ' ' ||
      losesBlank compress (f :: es)
  | _ => false

/-- What is written behind the first element, up to the end of an empty block. -/
def behindFirst (compress : Bool) (es : List Element) : List Char :=
  (tailText compress es).toList ++ textOf emptyBlock

theorem behindFirst_cons {f : Element} (hf : f.combinator ≠ .none) (compress : Bool)
    (es : List Element) :
    behindFirst compress (f :: es) =
      textOf (f.combinator.written compress) ++ (f.text.toList ++ behindFirst compress es) := by
  simp [behindFirst, tailText, Combinator.text_eq hf]

/-- What stands behind the first element starts with a separator. -/
theorem behindFirst_starts {es : List Element} (hes : ∀ f ∈ es, f.combinator ≠ .none)
    (compress : Bool) :
    ∃ c b, behindFirst compress es = c :: b ∧ c ∈ separators := by
  cases es with
  | nil => exact ⟨'\x7b', ['\x7d'], rfl, by decide⟩
  | cons f es =>
    obtain ⟨c, w, hwritten, hseparators⟩ := f.combinator.written_starts compress
    rw [behindFirst_cons (List.forall_mem_cons.mp hes).1, hwritten]
    exact ⟨c, _, rfl, hseparators List.mem_cons_self⟩

end Selector

namespace Lexer

/-- The pieces of elements as they are written. -/
inductive Written (compress : Bool) : List Element → List Piece → Prop
  | last {e : Element} {qs : List Piece} {rest : List Char} (h : Compound qs rest)
    (htext : e.text.toList = textOf qs) :
    Written compress [e] qs
  | cons {e f : Element} {es : List Element} {qs ps : List Piece} {rest : List Char}
    (h : Compound qs rest)
    (htext : e.text.toList = textOf qs) (hf : f.combinator ≠ .none)
    (hrest : Written compress (f :: es) ps) :
    Written compress (e :: f :: es) (qs ++ f.combinator.written compress ++ ps)

namespace Written

variable {compress : Bool} {es : List Element} {ps : List Piece}

/-- What is written of elements starts as a selector does. -/
theorem starts (h : Written compress es ps) :
    ∃ k text qs, ps = ⟨some (.token k), text⟩ :: qs ∧
    (Parser.first .selector).contains k = true := by
  cases h with
  | last h htext => exact h.starts
  | cons h htext hf hrest =>
    obtain ⟨k, text, qs, rfl, hstarts⟩ := h.starts
    exact ⟨k, text, _, rfl, hstarts⟩

/-- No piece of written elements is stray. -/
theorem known (h : Written compress es ps) : ∀ p ∈ ps, p.cut ≠ none := by
  induction h with
  | last h htext => exact h.known
  | @cons e f es qs ps rest h htext hf hrest ih =>
    have hwritten : ∀ p ∈ f.combinator.written compress, p.cut ≠ none := by
      cases f.combinator <;> cases compress <;> decide
    exact List.forall_mem_append.mpr ⟨List.forall_mem_append.mpr ⟨h.known, hwritten⟩, ih⟩

end Written

namespace Woven

open Selector

variable {cs : List Char} {es : List Element}

/-- Where a comment ends in what is written, one ends in the text that the elements are from. -/
theorem comment_of_behind (h : Woven cs es) (hes : ∀ f ∈ es, f.combinator ≠ .none) (compress : Bool)
    (hcomment : ['*', '/'] <:+: behindFirst compress es) : ['*', '/'] <:+: cs := by
  have hskip {a b : List Char} (ha : a ⊆ separators) (hab : ['*', '/'] <:+: a ++ b) :
      ['*', '/'] <:+: b := by
    induction a with
    | nil => exact hab
    | cons c a ih =>
      obtain ⟨hc, ha⟩ := List.cons_subset.mp ha
      obtain ⟨hstar, hslash⟩ := Fragment.ne_comment_of_separator hc
      rcases infix_append_cons (a := []) hstar hslash hab with hnil | hbehind
      · exact absurd hnil (by decide)
      · exact ih ha hbehind
  -- a separator is no part of the end of a comment, so this end lies within one element
  induction h with
  | nil cs => exact absurd (show ['*', '/'] <:+: ['\x7b', '\x7d'] from hcomment) (by decide)
  | @cons qs a rest e es h htext _ ih =>
    obtain ⟨he, hes⟩ := List.forall_mem_cons.mp hes
    obtain ⟨d, w, hwritten, hseparators⟩ := e.combinator.written_starts compress
    obtain ⟨c, b, hbehind, hc⟩ := behindFirst_starts hes compress
    rw [behindFirst_cons he] at hcomment
    have hown := hskip (hwritten ▸ hseparators) hcomment
    rw [htext, hbehind] at hown
    obtain ⟨hstar, hslash⟩ := Fragment.ne_comment_of_separator hc
    rcases infix_append_cons hstar hslash hown with hown | hothers
    · exact hown.trans ⟨a, rest, rfl⟩
    · have hrest := ih hes (hbehind ▸ hothers.trans (List.suffix_cons c b).isInfix)
      exact hrest.trans (List.suffix_append _ _).isInfix

theorem exists_cons {e : Element} (h : Woven cs (e :: es)) (b : List Char) :
    ∃ d w, e.text.toList ++ b = d :: w ∧ isBlank d = false ∧ d ≠ '=' := by
  cases h with
  | cons h htext _ =>
    obtain ⟨d, w, hd, hplain⟩ := h.exists_cons
    exact ⟨d, w ++ b, by rw [htext, hd, List.cons_append], hplain⟩

/-- **What is written is cut into the pieces of the elements again.** -/
theorem pieces_behind {e : Element} (h : Woven cs (e :: es)) (hes : ∀ f ∈ es, f.combinator ≠ .none)
    {compress : Bool} (hescape : losesBlank compress (e :: es) = false) :
    ∃ ps, Written compress (e :: es) ps ∧
      pieces (e.text.toList ++ behindFirst compress es) = ps ++ emptyBlock := by
  induction es generalizing cs e with
  | nil =>
    cases h with
    | @cons qs a rest _ _ h htext _ =>
      refine ⟨qs, .last h htext, ?_⟩
      have hcut :=
        h.pieces_append (c := '\x7b') (b := ['\x7d']) (by decide) (absurd · (by decide)) nofun
      rw [htext]
      exact hcut.trans (congrArg _ pieces_emptyBlock)
  | cons f es ih =>
    cases h with
    | @cons qs a rest _ _ h htext hrest =>
      obtain ⟨hf, hes'⟩ := List.forall_mem_cons.mp hes
      rw [losesBlank, Bool.or_eq_false_iff, Bool.and_eq_false_iff] at hescape
      obtain ⟨ps, hwritten, hps⟩ := ih hrest hes' hescape.2
      obtain ⟨c, w, hc, hseparators⟩ := f.combinator.written_starts compress
      obtain ⟨d, v, hd, hblank, hequals⟩ := hrest.exists_cons (behindFirst compress es)
      have hcomment := hrest.comment_of_behind hes compress
      rw [behindFirst_cons hf, hc] at hcomment
      -- of all that can follow the element, only a blank could be taken into an escape at its end
      have hkept : isBlank c = true → endsInEscape (textOf qs) = false := by
        intro hspace
        have hspaces : ∀ c ∈ separators, isBlank c = true → c = ' ' := forall_separators (by decide)
        obtain rfl := hspaces c (hseparators List.mem_cons_self) hspace
        rw [← htext]
        exact hescape.1.resolve_right (by simp [Combinator.text_eq hf, hc])
      refine ⟨_, .cons h htext hf hwritten, ?_⟩
      calc
        _ = pieces (textOf qs ++ c :: (w ++ (f.text.toList ++ behindFirst compress es))) := by
          rw [htext, behindFirst_cons hf, hc, List.cons_append]
        _ = qs ++ pieces (c :: (w ++ (f.text.toList ++ behindFirst compress es))) :=
          h.pieces_append (hseparators List.mem_cons_self)
            (fun hb => hcomment (hb.trans (List.suffix_cons c _).isInfix)) hkept
        _ = qs ++ (f.combinator.written compress ++ (ps ++ emptyBlock)) := by
          rw [← List.cons_append, ← hc, hd, Combinator.pieces_written _ _ hblank hequals, ← hd, hps]
        _ = _ := by simp only [List.append_assoc]

end Woven

end Lexer

end LessCss
