import LessCss.Proofs.Selectors.Written

/-!
# Selectors written and parsed again

A selector that was joined along a chain of nested rule sets is written before an empty block and
parsed again: what is read is one rule set with one selector, of the same elements
(`Ruleset.ofText_selectorText`).  What is written has the pieces of the elements
(`Lexer.Woven.pieces_behind`), and at each of them the parser finds the simple selector that was
found in the source (`Lexer.Compound.found`).
-/

namespace LessCss

open Lexer Text

namespace Cursor

theorem isAt_cons {t : Token} (previous : Option Token) (ts : List Token) (k : Kind) :
    isAt ⟨previous, t :: ts⟩ k = (t.kind == k) := rfl

theorem isAtAny_cons {t : Token} (previous : Option Token) (ts : List Token) (s : KindSet) :
    isAtAny ⟨previous, t :: ts⟩ s = s.contains t.kind := rfl

end Cursor

namespace Parser

/-! ## Selectors by what follows their first element -/

section Selector

variable {inExtend : Bool} {c next stop : Cursor} {v rest : Tree}

/-- No element and no combinator follows. -/
theorem selector_last (h : simpleSelector c = .found v next)
    (hsign : startsHere next .combinator = false) (hend : startsHere next .selector = false) :
    selector inExtend c = .found (.node .selector [v]) next := by
  rw [selector_eq]
  refine node_of_found ((bind_of_found h).trans ?_) .selector
  change (if startsHere next .combinator then _
    else if next.hasGap && startsHere next .selector && _ then _
    else give [v] : Parser (List Tree)) next = _
  rw [hsign, hend, Bool.and_false, Bool.false_and]
  rfl

/-- An element follows behind blanks. -/
theorem selector_gap (h : simpleSelector c = .found v next)
    (hsign : startsHere next .combinator = false) (hgap : next.hasGap = true)
    (hstarts : startsHere next .selector = true) (hrest : selector false next = .found rest stop) :
    selector false c = .found (.node .selector [v, rest]) stop := by
  rw [selector_eq]
  refine node_of_found ((bind_of_found h).trans ?_) .selector
  change (if startsHere next .combinator then _ else if next.hasGap && startsHere next .selector &&
    !false then
    selector false >>= fun rest => pure [v, rest] else _ : Parser (List Tree)) next = _
  rw [hsign, hgap, hstarts]
  exact bind_of_found hrest

/-- A combinator follows. -/
theorem selector_sign {x : Token} {ts : List Token} {previous : Option Token}
    (h : simpleSelector c = .found v ⟨previous, x :: ts⟩)
    (hsign : (first .combinator).contains x.kind = true)
    (hrest : selector inExtend ⟨some x, ts⟩ = .found rest stop) :
    selector inExtend c = .found (.node .selector [v, .node .combinator [.leaf x], rest]) stop := by
  rw [selector_eq]
  refine node_of_found ((bind_of_found h).trans ?_) .selector
  have htake : combinator ⟨previous, x :: ts⟩ = .found (.node .combinator [.leaf x])
      ⟨some x, ts⟩ := by
    have htake : take .combinator (first .combinator) ⟨previous, x :: ts⟩ = .found (.leaf x)
        ⟨some x, ts⟩ := by
      unfold take
      exact if_pos hsign
    exact node_of_found (bind_of_found (p := take .combinator (first .combinator)) htake)
      .combinator
  change (if startsHere ⟨previous, x :: ts⟩ .combinator then
    combinator >>= fun sign => selector inExtend >>= fun rest => pure [v, sign, rest] else _ :
      Parser (List Tree))
      ⟨previous, x :: ts⟩ = _
  rw [show startsHere ⟨previous, x :: ts⟩ .combinator = true from hsign]
  exact (bind_of_found htake).trans (bind_of_found hrest)

end Selector

/-! ## A rule set with an empty block -/

section Block

variable {c next stop : Cursor} {t list body : Tree}

/-- A selector before a brace is a list of one. -/
theorem selectorList_single (h : selector false c = .found t next)
    (hend : next.kind? = some .leftBrace) :
    selectorList c = .found (.node .selectorList [t]) next := by
  have hextend : next.isAt .extend = false := by
    rw [Cursor.isAt, hend]
    rfl
  have hcomma : next.isAt .comma = false := by
    rw [Cursor.isAt, hend]
    rfl
  have hhead : selectorWithExtend c = .found [t] next := by
    refine (bind_of_found h).trans ?_
    change (if next.isAt .extend then _ else give [t] : Parser (List Tree)) next = _
    rw [hextend]
    rfl
  have hmore : repeatWhile (·.isAt .comma) (do
      return (← expect .selectorList .comma) :: (← selectorWithExtend)) next = .found [] next :=
    repeatWhile_of_not hcomma _
  exact node_of_found ((bind_of_found hhead).trans (bind_of_found hmore)) .selectorList

/-- An empty block. -/
theorem block_empty {l r : Token} (hl : l.kind = .leftBrace) (hr : r.kind = .rightBrace)
    (previous : Option Token) :
    block ⟨previous, [l, r]⟩ =
      ⟨[], .found (.node .block [.leaf l, .node .statements [], .leaf r]) ⟨some r, []⟩⟩ := by
  have hleft : expect .block .leftBrace ⟨previous, [l, r]⟩ = .found (.leaf l) ⟨some l, [r]⟩ := by
    unfold expect take
    exact if_pos (by rw [hl]; decide)
  have hright : expect .block .rightBrace ⟨some l, [r]⟩ = .found (.leaf r) ⟨some r, []⟩ := by
    unfold expect take
    exact if_pos (by rw [hr]; decide)
  have hrow : bodyTree (statement block true) ⟨some l, [r]⟩ =
      ⟨[], .found (.node .statements []) ⟨some l, [r]⟩⟩ := by
    have hround : round? (statement block true) true ⟨some l, [r]⟩ = none := by simp [round?, hr]
    rw [bodyTree,
      body_eq (statement_advances block_advances true) (statement_takes block_takes true), hround]
  rw [block_eq]
  simp only [blockStep, recoveringNode, Recovering.bind_apply, Recovering.lift_apply, hleft,
    hrow, hright]
  rfl

/-- Selectors with a block. -/
theorem rulesetOrMixin_block {noted : List Mismatch} (h : selectorList c = .found list next)
    (hend : next.kind? = some .leftBrace) (hblock : block next = ⟨noted, .found body stop⟩) :
    rulesetOrMixin block c = ⟨noted, .found (.node .rulesetOrMixin [list, body]) stop⟩ := by
  have hnot {k : Kind} (hk : (some Kind.leftBrace == some k) = false) : next.isAt k = false := by
    rw [Cursor.isAt, hend, hk]
  have hany : next.isAtAny (.ofList [.semicolon, .important, .rightBrace]) = false := by
    rw [Cursor.isAtAny, hend]
    rfl
  have hbrace : next.isAt .leftBrace = true := by
    rw [Cursor.isAt, hend]
    rfl
  have hafter : afterSelectors block list next = ⟨noted, .found [body] stop⟩ := by
    unfold afterSelectors
    simp only [Recovering.bind_apply, Recovering.lift_apply, here, hnot (k := .leftParen) rfl,
      hnot (k := .semicolon) rfl, hany, hbrace, Bool.and_false, Bool.false_eq_true, if_false,
        if_true, hblock,
      Recovering.pure_apply, List.append_nil, List.nil_append]
  simp only [rulesetOrMixin, recoveringNode, Recovering.bind_apply, Recovering.lift_apply,
    h, hafter, Recovering.pure_apply, List.append_nil, List.nil_append]

/-- What starts like a selector outside of blocks is a rule set or a mixin. -/
theorem statement_of_selector {x : Token} {ts : List Token} {previous : Option Token}
    (hx : (first .selector).contains x.kind = true) :
    statement block false ⟨previous, x :: ts⟩ = rulesetOrMixin block ⟨previous, x :: ts⟩ := by
  have hstarts : ∀ k, (first .selector).contains k = true → (k == .atName) = false ∧
      (first .atRule).contains k = false ∧ (first .rulesetOrMixin).contains k = true := by
    intro k
    cases k <;> decide
  obtain ⟨hname, hrule, hruleset⟩ := hstarts x.kind hx
  have hname' : (Cursor.mk previous (x :: ts)).isAt .atName = false := by
    rw [Cursor.isAt_cons, hname]
  have hrule' : startsHere ⟨previous, x :: ts⟩ .atRule = false := hrule
  have hruleset' : startsHere ⟨previous, x :: ts⟩ .rulesetOrMixin = true := hruleset
  simp only [statement, Recovering.bind_apply, Recovering.lift_apply, here, hname', hrule',
    hruleset', give, Bool.false_and, Bool.false_eq_true, if_false, if_true, List.nil_append]

/-- A text that is one selector list with an empty block. -/
theorem ofTokens_selectors {x l r : Token} {ts : List Token} {previous : Option Token}
    (hx : (first .selector).contains x.kind = true) (hl : l.kind = .leftBrace)
    (hr : r.kind = .rightBrace)
    (h : selectorList ⟨none, x :: ts⟩ = .found list ⟨previous, [l, r]⟩) :
    Parse.ofTokens (x :: ts) =
      ⟨[.node .rulesetOrMixin [list, .node .block [.leaf l, .node .statements [], .leaf r]]], [],
        ⟨some r, []⟩⟩ := by
  have hadvances := statement_advances block_advances false
  have htakes := statement_takes block_takes false
  have hbody : Parse.ofTokens (x :: ts) = body (statement block false) false ⟨none, x :: ts⟩ :=
    body_statement_eq false false (Nat.le_refl _)
  have hend : Cursor.kind? ⟨previous, [l, r]⟩ = some .leftBrace := congrArg some hl
  have hfound := rulesetOrMixin_block h hend (block_empty hl hr previous)
  have hplain : ∀ k, (first .selector).contains k = true → k ≠ .rightBrace := by
    intro k
    cases k <;> decide
  have hround : round? (statement block false) false ⟨none, x :: ts⟩ =
      some
        ⟨some (.node .rulesetOrMixin [list, .node .block [.leaf l, .node .statements [], .leaf r]]),
          [], ⟨some r, []⟩⟩ := by
    simp only [round?, hplain _ hx, if_false, statement_of_selector hx, hfound]
  rw [hbody, body_eq hadvances htakes, hround]
  rfl

end Block

end Parser

/-! ## Elements that are found -/

/-- A selector with the given elements is found at some tokens, whatever stands before them. -/
def FindsElements (source : List Char) (tokens tail : List Token) (es : List Element) : Prop :=
  ∀ previous, ∃ parts last,
    Parser.selector false ⟨previous, tokens⟩ = .found (.node .selector parts) ⟨some last, tail⟩ ∧
    ∀ c, Reading.elements source c (.node .selector parts) =
      .ok (es.modifyHead fun e => { e with combinator := c })

namespace Lexer

open LessCss.Parser

namespace Compound

variable {qs : List Piece} {rest before after : List Char} {e f : Element} {es : List Element}
  {x : Token}
  {ts tail : List Token}

/-- A simple selector among tokens, and the element that it is read as. -/
theorem found_text (h : Compound qs rest) (htext : e.text.toList = textOf qs) (after : List Char)
    (previous : Option Token)
    (htail : ∀ t ∈ tail.head?, t.start = width before + width (textOf qs) →
      t.kind ∈ [Kind.greater, .plus, .tilde, .leftBrace]) :
    ∃ (v : Tree) (last : Token), v.sourceText (before ++ textOf qs ++ after) = e.text ∧
      last.stop = width before + width (textOf qs) ∧
      Parser.simpleSelector ⟨previous, (Lexing.ofPieces (width before) qs).tokens ++ tail⟩ =
        .found v ⟨some last, tail⟩ := by
  obtain ⟨v, last, hleaves, hstop, hfound⟩ := h.found (width before) previous htail
  refine ⟨v, last, ?_, hstop, hfound⟩
  rw [h.sourceText_eq hleaves rfl, ← htext, String.ofList_toList]

/-- The last element stands before a block. -/
theorem findsElements_last (h : Compound qs rest) (htext : e.text.toList = textOf qs)
    (hx : x.kind = .leftBrace) :
    FindsElements (before ++ textOf qs ++ after)
      ((Lexing.ofPieces (width before) qs).tokens ++ x :: ts) (x :: ts) [e] := by
  intro previous
  have hend {p : Phrase} (hp : (Parser.first p).contains .leftBrace = false) (last : Token) :
      startsHere ⟨some last, x :: ts⟩ p = false := by
    rw [startsHere, Cursor.isAtAny_cons, hx, hp]
  have htail : ∀ t ∈ (x :: ts).head?, t.start = width before + width (textOf qs) →
      t.kind ∈ [Kind.greater, .plus, .tilde, .leftBrace] := by
    rintro t ht -
    cases ht
    rw [hx]
    decide
  obtain ⟨v, last, hv, -, hfound⟩ := h.found_text htext after previous htail
  refine ⟨[v], last, selector_last hfound (hend (by decide) last) (hend (by decide) last),
    fun c => ?_⟩
  rw [Reading.elements, hv]
  rfl

/-- An element stands before another one that starts further on. -/
theorem findsElements_gap (h : Compound qs rest) (htext : e.text.toList = textOf qs)
    (hx : (Parser.first .selector).contains x.kind = true)
    (hgap : width before + width (textOf qs) < x.start) (hf : f.combinator = .descendant)
    (hrest : FindsElements (before ++ textOf qs ++ after) (x :: ts) tail (f :: es)) :
    FindsElements (before ++ textOf qs ++ after) ((Lexing.ofPieces (width before) qs).tokens ++
      x :: ts) tail
      (e :: f :: es) := by
  intro previous
  have hplain : ∀ k, (Parser.first .selector).contains k = true →
      (Parser.first .combinator).contains k = false := by
    intro k
    cases k <;> decide
  have htail : ∀ t ∈ (x :: ts).head?, t.start = width before + width (textOf qs) →
      t.kind ∈ [Kind.greater, .plus, .tilde, .leftBrace] := by
    rintro t ht htouch
    cases ht
    exact absurd htouch (Nat.ne_of_gt hgap)
  obtain ⟨v, last, hv, hstop, hfound⟩ := h.found_text htext after previous htail
  obtain ⟨parts, last', hselector, helements⟩ := hrest (some last)
  have hgap' : (Cursor.mk (some last) (x :: ts)).hasGap = true := decide_eq_true (hstop ▸ hgap)
  refine ⟨[v, .node .selector parts], last', selector_gap hfound (hplain _ hx) hgap' hx hselector,
    fun c => ?_⟩
  rw [Reading.elements, helements, hv, ← hf]
  rfl

/-- An element stands before a sign. -/
theorem findsElements_sign (h : Compound qs rest) (htext : e.text.toList = textOf qs) {sign : Char}
    (hf : f.combinator.sign? = some (x.kind, sign))
    (hsign : (Tree.node .combinator [.leaf x]).sourceText (before ++ textOf qs ++ after) =
      String.ofList [sign])
    (hrest : FindsElements (before ++ textOf qs ++ after) ts tail (f :: es)) :
    FindsElements (before ++ textOf qs ++ after) ((Lexing.ofPieces (width before) qs).tokens ++
      x :: ts) tail
      (e :: f :: es) := by
  intro previous
  obtain ⟨hsymbol, hstarts, hkind⟩ := Combinator.ofSymbol_sign hf
  have htail : ∀ t ∈ (x :: ts).head?, t.start = width before + width (textOf qs) →
      t.kind ∈ [Kind.greater, .plus, .tilde, .leftBrace] := by
    rintro t ht -
    cases ht
    exact hkind
  obtain ⟨v, last, hv, -, hfound⟩ := h.found_text htext after previous htail
  obtain ⟨parts, last', hselector, helements⟩ := hrest (some x)
  refine ⟨[v, .node .combinator [.leaf x], .node .selector parts], last',
    selector_sign hfound hstarts hselector, fun c => ?_⟩
  rw [Reading.elements, hsign, hsymbol, helements, hv]
  rfl

end Compound

/-- An element is found before the others, with what is written between them. -/
theorem Compound.findsElements_cons {compress : Bool} {e f : Element} {es : List Element}
    {qs ps : List Piece} {rest : List Char} (h : Compound qs rest)
    (htext : e.text.toList = textOf qs) (hf : f.combinator ≠ .none)
    (hps : Written compress (f :: es) ps) {before after : List Char} {tail : List Token}
    (hothers : FindsElements
      (before ++ textOf qs ++ (textOf (f.combinator.written compress) ++ textOf ps ++ after))
      ((Lexing.ofPieces (width (before ++ textOf qs ++ textOf (f.combinator.written compress)))
        ps).tokens ++ tail) tail
      (f :: es)) :
    FindsElements
    (before ++ textOf qs ++ (textOf (f.combinator.written compress) ++ textOf ps ++ after))
      ((Lexing.ofPieces (width before) qs).tokens ++
        ((Lexing.ofPieces (width (before ++ textOf qs)) (f.combinator.written compress)).tokens ++
          ((Lexing.ofPieces (width (before ++ textOf qs ++ textOf (f.combinator.written compress)))
            ps).tokens ++
            tail))) tail (e :: f :: es) := by
  -- without a sign the blank shows in the places of the tokens only, a sign is a token of its own
  cases hsign : f.combinator.sign? with
  | none =>
    have hwritten : f.combinator.written compress = [space] := by rw [Combinator.written, hsign]
    rw [hwritten] at hothers ⊢
    obtain ⟨k, text, ps', rfl, hk⟩ := hps.starts
    rw [Lexing.tokens_token, List.cons_append] at hothers ⊢
    refine h.findsElements_gap htext hk ?_ (Combinator.eq_descendant hf hsign) hothers
    rw [width_append, width_append]
    exact Nat.lt_succ_self _
  | some x =>
    obtain ⟨k, sign⟩ := x
    obtain ⟨pre, post, hwritten, hpre, hpost⟩ := Combinator.written_sign hsign compress
    rw [hwritten] at hothers ⊢
    rw [Lexing.tokens_append_pieces, hpre, Lexing.tokens_token,
      hpost, ← width_append, ← width_append]
    refine h.findsElements_sign htext hsign ?_ hothers
    have hassoc : before ++ textOf qs ++
        (textOf (pre ++ ⟨some (.token k), [sign]⟩ :: post) ++ textOf ps ++ after) =
        before ++ textOf qs ++ textOf pre ++ [sign] ++
          (textOf post ++ textOf ps ++ after) := by simp
    rw [hassoc]
    exact congrArg String.ofList (slice_append ..)

/-- **Where elements are written before a block, a selector with these elements is found.** -/
theorem Written.findsElements {compress : Bool} {es : List Element} {ps : List Piece}
    (h : Written compress es ps) {t : Token} (ts : List Token) (ht : t.kind = .leftBrace) :
    ∀ before after,
      FindsElements (before ++ textOf ps ++ after) ((Lexing.ofPieces (width before) ps).tokens ++
        t :: ts) (t :: ts)
        es := by
  induction h with
  | last h htext => exact fun before after => h.findsElements_last htext ht
  | @cons e f es qs ps rest h htext hf hrest ih =>
    intro before after
    have hothers := ih (before ++ textOf qs ++ textOf (f.combinator.written compress)) after
    have hsource : before ++ textOf qs ++ textOf (f.combinator.written compress) ++
        textOf ps ++ after =
        before ++ textOf qs ++ (textOf (f.combinator.written compress) ++ textOf ps ++ after) := by
      simp only [List.append_assoc]
    rw [hsource] at hothers
    have hwhole := h.findsElements_cons htext hf hrest hothers
    simpa only [textOf_append, Lexing.tokens_append_pieces, width_append, List.append_assoc,
      Nat.add_assoc] using hwhole

end Lexer

/-- The elements of the selectors of a rule set. -/
def Node.elements : Node → List (List Element)
  | .ruleset selectors _ _ => selectors.map Selector.elements
  | _ => []

/-- A rule set with one selector and an empty block, as it is read. -/
theorem Reading.statements_emptyBlock {source : List Char} {parts : List Tree} {es : List Element}
    (h : elements source .none (.node .selector parts) = .ok es) (l r : Token) :
    statements source [.node .rulesetOrMixin [.node .selectorList [.node .selector parts],
      .node .block [.leaf l, .node .statements [], .leaf r]]] =
        .ok [.ruleset [.ofElements es] [] false] := by
  have hselectors : selectors source (.node .selectorList [.node .selector parts]) =
      .ok [.ofElements es] := by
    simp only [selectors, Tree.children, selectorsOf, selector, h]
    rfl
  have hblock : blockIn source [.node .block [.leaf l, .node .statements [], .leaf r]] =
      .ok (some []) := by
    simp only [blockIn, statements]
    rfl
  have hstatement :
      statement source (.node .rulesetOrMixin [.node .selectorList [.node .selector parts],
      .node .block [.leaf l, .node .statements [], .leaf r]]) =
        .ok (some (.ruleset [.ofElements es] [] false)) := by
    rw [statement, hselectors, hblock]
    rfl
  rw [statements, hstatement, statements]
  rfl

namespace Ruleset

variable {es : List Element}

/-- **Elements that are written before an empty block are read as one selector.** -/
theorem ofText_written {compress : Bool} {ps : List Piece} (h : Lexer.Written compress es ps)
    (hfirst : ∀ e ∈ es.head?, e.combinator = .none) {text : String}
    (htext : pieces text.toList = ps ++ emptyBlock) :
    Ruleset.ofText text = .ok (.ofRules [.ruleset [.ofElements es] [] false]) := by
  let l : Token := ⟨.leftBrace, width (textOf ps), width (textOf ps) + 1, "\x7b"⟩
  let r : Token := ⟨.rightBrace, width (textOf ps) + 1, width (textOf ps) + 1 + 1, "\x7d"⟩
  have htokens : (Lexing.ofText text).tokens = (Lexing.ofPieces 0 ps).tokens ++ [l, r] := by
    rw [Lexing.ofText, htext, Lexing.tokens_append_pieces, Nat.zero_add]
    rfl
  have hstrays : (Lexing.ofText text).strays = [] := by
    rw [Lexing.ofText, htext, Lexing.strays_ofPieces]
    exact List.forall_mem_append.mpr ⟨h.known, by decide⟩
  have hsource : text.toList = [] ++ textOf ps ++ textOf emptyBlock := by
    rw [← textOf_pieces text.toList, htext, textOf_append]
    rfl
  obtain ⟨parts, last, hselector, helements⟩ :=
    h.findsElements (t := l) [r] rfl [] (textOf emptyBlock) none
  have hes : es.modifyHead (fun e => { e with combinator := .none }) = es := by
    cases es with
    | nil => rfl
    | cons e es => simp [← hfirst e rfl]
  obtain ⟨k, first, qs, hps, hk⟩ := h.starts
  have hread := Reading.statements_emptyBlock ((helements .none).trans (congrArg _ hes)) l r
  have hlist := Parser.selectorList_single hselector rfl
  have htree : Parse.ofTokens (Lexing.ofText text).tokens = ⟨[.node .rulesetOrMixin
      [.node .selectorList [.node .selector parts],
        .node .block [.leaf l, .node .statements [], .leaf r]]], [],
      ⟨some r, []⟩⟩ := by
    rw [htokens]
    subst hps
    exact Parser.ofTokens_selectors hk rfl rfl hlist
  have herror : (Parse.ofText text).firstError? = none := by
    simp only [Parse.ofText, Parse.firstError?, hstrays, htree]
  have hchildren : (Parse.ofText text).tree.children = [.node .rulesetOrMixin
      [.node .selectorList [.node .selector parts],
        .node .block [.leaf l, .node .statements [], .leaf r]]] := by
    simp only [Parse.ofText, htree, Tree.children]
  rw [Ruleset.ofText]
  simp only [herror, hchildren, hsource, hread]
  rfl

/-- A text of two rule sets, one in the block of the other, and the selector that they give. -/
theorem exists_joined (source : String) (es : List Element) (e : Element)
    (h : (match Ruleset.ofText source with
      | .ok ⟨_, [.ruleset [outer] [.ruleset [inner] _ _] _], _⟩ =>
        decide (outer.elements = es ∧ inner.elements = [e])
      | _ => false) = true)
    (hown : ∀ e' ∈ e :: es, e'.text.toList.contains '&' = false) (he : e.combinator = .none) :
    ∃ sheet chain s, Ruleset.ofText source = .ok sheet ∧ Nested sheet.rules chain ∧
      (∀ selectors ∈ chain, ∀ s ∈ selectors, s.hasParent = false) ∧
        s ∈ chain.foldl Selector.joinAll [] ∧
      s.elements = es ++ [{ e with combinator := .descendant }] := by
  split at h
  · next outer inner _ _ _ _ hread =>
    obtain ⟨houter, hinner⟩ := of_decide_eq_true h
    obtain ⟨he', hes⟩ := List.forall_mem_cons.mp hown
    have houter' : outer.hasParent = false := by
      rw [Selector.hasParent, houter, List.any_eq_false]
      exact fun f hf => Bool.eq_false_iff.mp (hes f hf)
    have hinner' : inner.hasParent = false := by
      rw [Selector.hasParent, hinner, List.any_cons, List.any_nil, Bool.or_false, he']
    refine ⟨_, [[outer], [inner]], Selector.join outer inner, hread,
      .ruleset List.mem_cons_self (.ruleset List.mem_cons_self (.done _)), ?_,
        List.mem_singleton_self _, ?_⟩
    · rintro selectors hselectors s hs
      rcases List.mem_pair.mp hselectors with rfl | rfl
      · rwa [List.mem_singleton.mp hs]
      · rwa [List.mem_singleton.mp hs]
    · rw [Selector.join_of_own hinner' hinner he, Selector.elements, houter]
  · cases h

/-- **The text of a selector is read as the same elements.**  For every chain of nested rule sets in
a source that is read, whose selectors do not refer to the ones around them, and every selector that
is joined along the chain: its text, compressed or not, with an empty block behind it is read as one
rule set with one selector of the same elements. There is one condition: no blank is written behind
an element that ends in an escape of digits, as the blank would belong to the escape. -/
theorem ofText_selectorText {source : String} {sheet : Ruleset}
    (h : Ruleset.ofText source = .ok sheet) {chain : List (List Selector)}
    (hchain : Nested sheet.rules chain)
    (hown : ∀ selectors ∈ chain, ∀ s ∈ selectors, s.hasParent = false) {s : Selector}
    (hs : s ∈ chain.foldl Selector.joinAll []) (compress : Bool)
    (hescape : Selector.losesBlank compress s.elements = false) :
    Ruleset.ofText (s.text compress ++ "\x7b\x7d") =
      .ok (.ofRules [.ruleset [.ofElements s.elements] [] false]) := by
  obtain ⟨rest, hlocated, e, es, helements, hfirst, hes⟩ :=
    hchain.stands hown _ [] (List.suffix_refl _) (traced_ofText h) (List.forall_mem_nil _) s hs
  have hknown := Lexing.strays_ofPieces.mp (exists_of_ofText h).1
  have hwoven : Woven source.toList s.elements := by
    have hpieces :=
      woven_of_located hlocated (pieces source.toList) [] (by rw [textOf_pieces]; rfl) rfl
      (by rw [textOf_pieces]) hknown
    rwa [textOf_pieces] at hpieces
  rw [helements] at hwoven hescape ⊢
  obtain ⟨ps, hwritten, hps⟩ := hwoven.pieces_behind hes hescape
  refine ofText_written hwritten (fun f hf => ?_) ?_
  · cases hf
    exact hfirst
  · rw [← hps, Selector.text, helements]
    simp [hfirst, Combinator.text, Combinator.symbol?, Selector.behindFirst, emptyBlock]

/-- A rule set below a child: the text has blanks around the sign, and is read as the same three
elements. -/
theorem ofText_selectorText_child : ∃ sheet chain s,
    Ruleset.ofText ".a>.b\x7b.c\x7b\x7d\x7d" = .ok sheet ∧ Nested sheet.rules chain ∧
      (∀ selectors ∈ chain, ∀ s ∈ selectors, s.hasParent = false) ∧
      s ∈ chain.foldl Selector.joinAll [] ∧
      s.text false = ".a > .b .c" ∧ Selector.losesBlank false s.elements = false ∧
      Ruleset.ofText (s.text false ++ "\x7b\x7d") =
        .ok (.ofRules [.ruleset [.ofElements s.elements] [] false]) := by
  obtain ⟨sheet, chain, s, hread, hchain, hown, hs, helements⟩ :=
    exists_joined ".a>.b\x7b.c\x7b\x7d\x7d"
    [⟨.none, ".a"⟩, ⟨.child, ".b"⟩] ⟨.none, ".c"⟩ (by decide +kernel) (by decide +kernel) rfl
  have hescape : Selector.losesBlank false s.elements = false := by
    rw [helements]
    decide +kernel
  refine ⟨sheet, chain, s, hread, hchain, hown, hs, ?_, hescape,
    ofText_selectorText hread hchain hown hs false hescape⟩
  rw [Selector.text, helements]
  decide +kernel

/-- A class that ends in an escape of digits, and a rule set in its block: the blank between the two
classes belongs to the escape, and what is read is one element. -/
theorem ofText_selectorText_escape : ∃ sheet chain s,
    Ruleset.ofText ".a\\41\x7b.b\x7b\x7d\x7d" = .ok sheet ∧ Nested sheet.rules chain ∧
      (∀ selectors ∈ chain, ∀ s ∈ selectors, s.hasParent = false) ∧
      s ∈ chain.foldl Selector.joinAll [] ∧
      s.elements = [⟨.none, ".a\\41"⟩, ⟨.descendant, ".b"⟩] ∧ ∀ compress,
        s.text compress = ".a\\41 .b" ∧
        Ruleset.ofText (s.text compress ++ "\x7b\x7d") ≠
          .ok (.ofRules [.ruleset [.ofElements s.elements] [] false]) := by
  obtain ⟨sheet, chain, s, hread, hchain, hown, hs, helements⟩ := exists_joined
    ".a\\41\x7b.b\x7b\x7d\x7d" [⟨.none, ".a\\41"⟩] ⟨.none, ".b"⟩ (by decide +kernel)
      (by decide +kernel) rfl
  refine ⟨sheet, chain, s, hread, hchain, hown, hs, helements, fun compress => ?_⟩
  have htext : s.text compress = ".a\\41 .b" := by
    rw [Selector.text, helements]
    cases compress <;> decide +kernel
  have hone :
      ((Ruleset.ofText (".a\\41 .b" ++ "\x7b\x7d")).toOption.map fun r =>
        r.rules.map Node.elements) =
      some [[[⟨.none, ".a\\41 .b"⟩]]] := by decide +kernel
  refine ⟨htext, fun hsame => ?_⟩
  rw [htext] at hsame
  rw [hsame, helements] at hone
  exact absurd hone (by decide)

end Ruleset

end LessCss
