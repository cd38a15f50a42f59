import LessCss.Proofs.Selectors.Compounds
import LessCss.Proofs.Selectors.Joined

/-!
# Ampersands

An ampersand token stands for the selector around, but whether a selector has one is looked up in
the texts of its elements, and there an ampersand is replaced wherever it is: in strings, names with
escapes, and comments as well.  The two agree on a selector that was read
(`Selector.RefersByTokens`) just if no other piece of the source with an ampersand in it lies inside
of its elements (`Lexer.Quiet`).

For this the elements of a selector are traced to the pieces of the source that they cover
(`Selector.ReadOff`), for the selectors of all rule sets, and for those that they extend
(`Ruleset.comeFrom_ofText`).
-/

namespace LessCss

open Lexer

namespace Lexer

/-! ## Pieces with ampersands -/

/-- Whether a piece is an ampersand token. -/
def Piece.isReference (p : Piece) : Bool := p.cut == some (.token .ampersand)

/-- The text of some pieces with another one in the place of the ampersand tokens. -/
def replaced (outer : List Char) (qs : List Piece) : List Char :=
  qs.flatMap fun p => if p.isReference then outer else p.text

/-- No piece but the ampersand tokens has an ampersand in it. -/
def Quiet (qs : List Piece) : Prop := ∀ p ∈ qs, '&' ∈ p.text → p.isReference = true

variable {qs : List Piece} {outer cs : List Char}

/-- The text of an ampersand token is an ampersand. -/
theorem text_of_isReference {p : Piece} (hp : p ∈ pieces cs) (h : p.isReference = true) :
    p.text = ['&'] :=
  (accepts_of_mem_pieces p hp _ (beq_iff_eq.mp h)).just

theorem ampersand_mem_textOf : '&' ∈ textOf qs ↔ ∃ p ∈ qs, '&' ∈ p.text := by
  simp [textOf]

/-- Replacing ampersands in the text replaces the ampersand tokens, and nothing else if the pieces
are quiet. -/
theorem replaceParent_textOf (hqs : qs <:+: pieces cs) (hquiet : Quiet qs) :
    Selector.replaceParent outer (textOf qs) = replaced outer qs := by
  have hpieces : ∀ p ∈ qs, p ∈ pieces cs := hqs.subset
  clear hqs
  induction qs with
  | nil => rfl
  | cons p qs ih =>
    obtain ⟨hp, hquiet⟩ := List.forall_mem_cons.mp hquiet
    obtain ⟨hpiece, hpieces⟩ := List.forall_mem_cons.mp hpieces
    have hfirst : Selector.replaceParent outer p.text =
        if p.isReference then outer else p.text := by
      split
      · next href =>
        rw [text_of_isReference hpiece href]
        exact List.append_nil outer
      · next href => exact Selector.replaceParent_eq_self fun h => href (hp h)
    rw [textOf_cons, Selector.replaceParent_append, hfirst, ih hquiet hpieces, replaced, replaced,
      List.flatMap_cons]

/-- Ampersands are replaced in every piece, so that an ampersand which should stay tells the
difference. -/
theorem quiet_of_replaced {c : Char} (hc : c ≠ '&')
    (h : Selector.replaceParent [c] (textOf qs) = replaced [c] qs) : Quiet qs := by
  intro p hp hampersand
  by_contra href
  -- where only tokens are replaced the ampersand of this piece is kept, but the text has none left
  have hstays : '&' ∈ replaced [c] qs := by
    refine List.mem_flatMap.mpr ⟨p, hp, ?_⟩
    rwa [if_neg href]
  rw [← h] at hstays
  obtain ⟨d, -, hd⟩ := List.mem_flatMap.mp hstays
  split at hd
  · exact hc (List.mem_singleton.mp hd).symm
  · next hne => exact hne (beq_iff_eq.mpr (List.mem_singleton.mp hd).symm)

/-- The tokens of some pieces include an ampersand just if one of the pieces is one. -/
theorem exists_ampersand_iff {n : Nat} :
    (∃ x ∈ (Lexing.ofPieces n qs).tokens, x.kind = .ampersand) ↔
    ∃ p ∈ qs, p.isReference = true := by
  constructor
  · rintro ⟨x, hx, hkind⟩
    obtain ⟨pre, text, post, rfl, -⟩ := Lexing.mem_tokens_ofPieces hx
    exact ⟨⟨some (.token x.kind), text⟩, by simp, beq_iff_eq.mpr (by rw [hkind])⟩
  · rintro ⟨⟨cut, text⟩, hp, href⟩
    obtain rfl : cut = some (.token .ampersand) := beq_iff_eq.mp href
    obtain ⟨pre, post, rfl⟩ := List.append_of_mem hp
    rw [Lexing.tokens_append_pieces, Lexing.tokens_token]
    exact ⟨_, List.mem_append_right _ List.mem_cons_self, rfl⟩

end Lexer

/-! ## The pieces of elements -/

/-- Each element has the text of a row of pieces of the source. -/
def Covers (source : String) (es : List Element) (parts : List (List Piece)) : Prop :=
  List.Forall₂ (fun e qs => e.text.toList = textOf qs ∧ qs <:+: pieces source.toList) es parts

/-- A simple selector among the tokens of a text without stray stretches covers a row of its
pieces. -/
theorem Tree.IsSimple.exists_pieces {source : String} (hstrays : (Lexing.ofText source).strays = [])
    {u : Tree} (hu : u.IsSimple) (hleaves : u.leaves <:+: (Lexing.ofText source).tokens) :
    ∃ qs n, qs <:+: pieces source.toList ∧ (u.sourceText source.toList).toList = textOf qs ∧
      u.leaves = (Lexing.ofPieces n qs).tokens := by
  obtain ⟨pre, post, htokens⟩ := hleaves
  obtain ⟨as, qs, bs, hpieces, hcompound, -, hleaves, -⟩ := exists_compound hu htokens.symm
    (by rw [textOf_pieces]) (Lexing.strays_ofPieces.mp hstrays)
  refine ⟨qs, _, ⟨as, bs, hpieces.symm⟩, ?_, hleaves⟩
  have hsource : source.toList = textOf as ++ textOf qs ++ textOf bs := by
    rw [← textOf_pieces source.toList, hpieces, textOf_append, textOf_append]
  rw [Nat.zero_add] at hleaves
  rw [hsource, hcompound.sourceText_eq hleaves rfl, String.toList_ofList]

namespace Tree

/-- An ampersand token is among the tokens of a tree. -/
def HasAmpersand (t : Tree) : Prop := ∃ x ∈ t.leaves, x.kind = .ampersand

/-- The sign of a combinator is no ampersand. -/
theorem IsSign.not_hasAmpersand {t : Tree} (h : t.IsSign) : ¬ t.HasAmpersand := by
  obtain ⟨x, hleaves, hx⟩ := h
  rintro ⟨y, hy, hkind⟩
  rw [hleaves, List.mem_singleton] at hy
  subst hy
  rw [hkind] at hx
  exact absurd hx (by decide)

theorem hasAmpersand_node {p : Phrase} {ts : List Tree} :
    (node p ts).HasAmpersand ↔ ∃ t ∈ ts, t.HasAmpersand := by
  have hrow : ∀ ts : List Tree, (∃ x ∈ leavesOf ts, x.kind = .ampersand) ↔
      ∃ t ∈ ts, t.HasAmpersand := by
    intro ts
    induction ts with
    | nil => simp
    | cons t ts ih =>
      simp only [leavesOf_cons, List.mem_append, or_and_right, exists_or, List.mem_cons,
        exists_eq_left, ih]
      rfl
  exact hrow ts

end Tree

namespace Covers

open Selector

variable {source : String} {es : List Element} {parts : List (List Piece)}

/-- The pieces of the elements are pieces of the source. -/
theorem mem_pieces (h : Covers source es parts) {qs : List Piece} (hqs : qs ∈ parts) {p : Piece}
    (hp : p ∈ qs) :
    p ∈ pieces source.toList := by
  induction h with
  | nil => cases hqs
  | cons hfirst _ ih =>
    rcases List.mem_cons.mp hqs with rfl | hqs
    · exact hfirst.2.subset hp
    · exact ih hqs

/-- The texts of elements have an ampersand in them just if one of their pieces has. -/
theorem any_ampersand_iff (h : Covers source es parts) :
    (es.any fun e => e.text.toList.contains '&') = true ↔ ∃ qs ∈ parts, ∃ p ∈ qs, '&' ∈ p.text := by
  induction h with
  | nil => simp
  | @cons e qs es parts hfirst _ ih =>
    rw [List.any_cons, Bool.or_eq_true, ih, List.contains_iff_mem, hfirst.1, ampersand_mem_textOf,
      List.exists_mem_cons_iff]

/-- Replacing ampersands in the texts of elements replaces ampersand tokens, and nothing else if all
pieces are quiet. -/
theorem map_replaceParent (h : Covers source es parts) (hquiet : ∀ qs ∈ parts, Quiet qs)
    (outer : List Char) :
    (es.map fun e => { e with text := String.ofList (replaceParent outer e.text.toList) }) =
      List.zipWith (fun e qs => { e with text := String.ofList (replaced outer qs) }) es parts := by
  induction h with
  | nil => rfl
  | @cons e qs es parts hfirst _ ih =>
    obtain ⟨hqs, hquiet⟩ := List.forall_mem_cons.mp hquiet
    rw [List.map_cons, List.zipWith_cons_cons, ih hquiet, hfirst.1,
      replaceParent_textOf hfirst.2 hqs]

/-- Pieces are quiet if replacing ampersands in the texts replaces ampersand tokens only. -/
theorem quiet_of_map_replaceParent (h : Covers source es parts) {c : Char} (hc : c ≠ '&')
    (heq : (es.map fun e => { e with text := String.ofList (replaceParent [c] e.text.toList) }) =
      List.zipWith (fun e qs => { e with text := String.ofList (replaced [c] qs) }) es parts) :
    ∀ qs ∈ parts, Quiet qs := by
  induction h with
  | nil => exact List.forall_mem_nil _
  | @cons e qs es parts hfirst _ ih =>
    rw [List.map_cons, List.zipWith_cons_cons, List.cons_eq_cons] at heq
    obtain ⟨hhead, hrest⟩ := heq
    have htext := String.ofList_injective (congrArg Element.text hhead)
    rw [hfirst.1] at htext
    exact List.forall_mem_cons.mpr ⟨quiet_of_replaced hc htext, ih hrest⟩

end Covers

/-- The ampersand tokens of some trees are among the pieces of some rows. -/
def ReferencesIn (ts : List Tree) (parts : List (List Piece)) : Prop :=
  (∃ t ∈ ts, t.HasAmpersand) ↔ ∃ qs ∈ parts, ∃ p ∈ qs, p.isReference = true

/-- The ampersand tokens of one more tree are among the pieces of one more row. -/
theorem ReferencesIn.cons {t : Tree} {ts : List Tree} {qs : List Piece}
    {parts : List (List Piece)} {n : Nat} (h : t.leaves = (Lexing.ofPieces n qs).tokens)
    (hrest : ReferencesIn ts parts) :
    ReferencesIn (t :: ts) (qs :: parts) := by
  have hfirst : t.HasAmpersand ↔ ∃ p ∈ qs, p.isReference = true := by
    rw [Tree.HasAmpersand, h, exists_ampersand_iff]
  rw [ReferencesIn, List.exists_mem_cons_iff, List.exists_mem_cons_iff, hfirst]
  exact or_congr_right hrest

namespace Reading

/-- The elements that are read off a chain of simple selectors cover pieces of the source, and the
ampersand tokens of the chain are among these. -/
theorem elements_cover {source : String} (hstrays : (Lexing.ofText source).strays = []) {t : Tree}
    (h : t.Chained) (hleaves : t.leaves <:+: (Lexing.ofText source).tokens) : ∀ combinator,
    Ensures (elements source.toList combinator t) fun es =>
      ∃ parts, Covers source es parts ∧ ReferencesIn [t] parts := by
  have hpart {p : Phrase} {ts : List Tree} {u : Tree}
      (h : (Tree.node p ts).leaves <:+: (Lexing.ofText source).tokens) (hu : u ∈ ts) :
      u.leaves <:+: (Lexing.ofText source).tokens := (Tree.leaves_infix_leavesOf hu).trans h
  have hnode {p : Phrase} {ts : List Tree} {parts : List (List Piece)} (h : ReferencesIn ts parts) :
      ReferencesIn [.node p ts] parts := by
    simpa [ReferencesIn, Tree.hasAmpersand_node] using h
  induction h with
  | @last simple h =>
    intro combinator
    obtain ⟨qs, n, hqs, htext, htokens⟩ := h.exists_pieces hstrays (hpart hleaves (.head _))
    rw [elements]
    exact .ok ⟨[qs], .cons ⟨htext, hqs⟩ .nil, hnode (.cons htokens (by simp [ReferencesIn]))⟩
  | @blank simple rest h _ ih =>
    intro combinator
    obtain ⟨qs, n, hqs, htext, htokens⟩ := h.exists_pieces hstrays (hpart hleaves (.head _))
    rw [elements]
    refine .bind (ih (hpart hleaves (.tail _ (.head _))) _) fun es hcover => .ok ?_
    obtain ⟨parts, hes, hrest⟩ := hcover
    exact ⟨qs :: parts, .cons ⟨htext, hqs⟩ hes, hnode (.cons htokens hrest)⟩
  | @sign simple sign rest h hsign _ ih =>
    intro combinator
    obtain ⟨qs, n, hqs, htext, htokens⟩ := h.exists_pieces hstrays (hpart hleaves (.head _))
    rw [elements]
    refine .bind (ih (hpart hleaves (.tail _ (.tail _ (.head _)))) _) fun es hcover => .ok ?_
    obtain ⟨parts, hes, hrest⟩ := hcover
    refine ⟨qs :: parts, .cons ⟨htext, hqs⟩ hes, hnode (.cons htokens ?_)⟩
    rwa [ReferencesIn, List.exists_mem_cons_iff, or_iff_right hsign.not_hasAmpersand]

end Reading

namespace Selector

/-- A selector is read off a phrase in the tree of a source, its elements off rows of pieces, and
the ampersand tokens of the phrase are among these. -/
structure ReadOff (source : String) (t : Tree) (parts : List (List Piece)) (s : Selector) :
    Prop where
  occurs : t.OccursIn (Parse.ofText source).tree
  phrase : t.phrase? = some .selector
  read : Reading.elements source.toList .none t = .ok s.elements
  linked : Linked s.elements
  covers : Covers source s.elements parts
  references : t.HasAmpersand ↔ ∃ qs ∈ parts, ∃ p ∈ qs, p.isReference = true

/-- Just the ampersand tokens of a selector refer to the selector around: it has a parent if there
is one, joining replaces these and leaves all other pieces alone, and without one the selector
becomes a descendant. -/
structure RefersByTokens (t : Tree) (parts : List (List Piece)) (s : Selector) : Prop where
  hasParent : s.hasParent = true ↔ t.HasAmpersand
  replaces : t.HasAmpersand → ∀ parent, (join parent s).elements =
    List.zipWith
      (fun e qs => { e with text := String.ofList (replaced (parent.text false).toList qs) })
      s.elements parts
  descends : ¬ t.HasAmpersand → ∀ parent, ∃ e more, s.elements = e :: more ∧
    (join parent s).elements = parent.elements ++ { e with combinator := .descendant } :: more

/-- Joining a selector that refers to its parent replaces the ampersands in its texts. -/
theorem elements_join_of_hasParent {parent s : Selector} (h : s.hasParent = true) :
    (join parent s).elements =
    s.elements.map fun e => { e with
      text := String.ofList (replaceParent (parent.text false).toList e.text.toList) } := by
  simp [join, h, elements]

/-- **Just the ampersand tokens of a selector refer to the selector around if and only if no other
piece inside of its elements has an ampersand in it.** -/
theorem ReadOff.refersByTokens_iff {source : String} {t : Tree} {parts : List (List Piece)}
    {s : Selector} (h : s.ReadOff source t parts) : s.RefersByTokens t parts ↔
    ∀ qs ∈ parts, Quiet qs := by
  constructor
  · intro hrefers
    by_cases hampersand : ∃ qs ∈ parts, ∃ p ∈ qs, '&' ∈ p.text
    · -- with a selector of one other character around, an ampersand that is no token is seen to be
      -- gone
      have hparent : s.hasParent = true := h.covers.any_ampersand_iff.mpr hampersand
      have hjoined := hrefers.replaces (hrefers.hasParent.mp hparent) (.ofElements [⟨.none, "x"⟩])
      rw [elements_join_of_hasParent hparent] at hjoined
      exact h.covers.quiet_of_map_replaceParent (c := 'x') (by decide) hjoined
    · intro qs hqs p hp hmem
      exact absurd ⟨qs, hqs, p, hp, hmem⟩ hampersand
  · intro hquiet
    have hparent : s.hasParent = true ↔ t.HasAmpersand := by
      rw [h.references]
      refine h.covers.any_ampersand_iff.trans ⟨?_, ?_⟩
      · rintro ⟨qs, hqs, p, hp, hmem⟩
        exact ⟨qs, hqs, p, hp, hquiet qs hqs p hp hmem⟩
      · rintro ⟨qs, hqs, p, hp, href⟩
        refine ⟨qs, hqs, p, hp, ?_⟩
        rw [text_of_isReference (h.covers.mem_pieces hqs hp) href]
        exact List.mem_singleton_self _
    refine ⟨hparent, fun ht parent => ?_, fun ht parent => ?_⟩
    · rw [elements_join_of_hasParent (hparent.mpr ht)]
      exact h.covers.map_replaceParent hquiet _
    · obtain ⟨e, more, helements, he, -⟩ := h.linked
      rw [join_of_own (Bool.eq_false_iff.mpr (mt hparent.mp ht)) helements he]
      exact ⟨e, more, helements, rfl⟩

end Selector

/-! ## The selectors of a stylesheet -/

open Selector

/-- A selector, and each one that it extends, is read off the source. -/
def Selector.ComesFrom (source : String) (s : Selector) : Prop :=
  ∀ u, (u = s ∨ ∃ all, (u, all) ∈ s.extending) → ∃ t parts, u.ReadOff source t parts

namespace Reading

section Clean

variable {source : String} (hstrays : (Lexing.ofText source).strays = [])
  (hclean : (Parse.ofText source).mismatches = [])

include hstrays hclean

/-- The elements of a chain are read off rows of pieces, with all its ampersand tokens. -/
theorem elements_readOff {t : Tree} (hoccurs : t.OccursIn (Parse.ofText source).tree)
    (h : t.Chained) :
    Ensures (elements source.toList .none t) fun es =>
      ∀ targets, ∃ parts, (Selector.mk es targets).ReadOff source t parts := by
  intro es hes targets
  obtain ⟨parts, hcovers, hreferences⟩ :=
    elements_cover hstrays h (Parse.leaves_infix hclean hoccurs) .none es hes
  refine ⟨parts, hoccurs, h.phrase_eq, hes, (elements_stands _ h es hes).2, hcovers, ?_⟩
  simpa [ReferencesIn] using hreferences

/-- A selector without clause is read off its chain. -/
theorem selector_readOff {t : Tree} (hoccurs : t.OccursIn (Parse.ofText source).tree)
    (h : t.Chained) :
    Ensures (selector source.toList t) fun s => s.extending = [] ∧ ∃ parts,
      s.ReadOff source t parts :=
  .bind (elements_readOff hstrays hclean hoccurs h) fun _ hes => .ok ⟨rfl, hes []⟩

/-- Each selector that a clause extends is read off the source. -/
theorem extendTargets_readOff {parts : List Tree}
    (hoccurs : (Tree.node .extendClause parts).OccursIn (Parse.ofText source).tree)
    (h : ∀ u ∈ parts, u.phrase? = some .selector → u.Chained) :
    Ensures (extendTargets source.toList (.node .extendClause parts)) fun targets =>
      ∀ target ∈ targets, ∃ t parts, target.1.ReadOff source t parts := by
  intro targets htargets target htarget
  obtain ⟨u, hu, hread⟩ := (values_of_mapM htargets).2 target htarget
  obtain ⟨hmem, hphrase⟩ := mem_nodesOf.mp hu
  obtain ⟨s, hs, hread⟩ := exists_of_bind_eq_ok hread
  cases hread
  exact ⟨u, (selector_readOff hstrays hclean (hoccurs.child hmem) (h u hmem hphrase) s hs).2⟩

/-- Each selector of a rule set is read off the source. -/
theorem selectorsOf_comeFrom {ts : List Tree}
    (hoccurs : ∀ t ∈ ts, t.OccursIn (Parse.ofText source).tree) (h : Tree.Listed ts) :
    Ensures (selectorsOf source.toList ts) fun ss => ∀ s ∈ ss, s.ComesFrom source := by
  induction h with
  | nil => exact .ok (List.forall_mem_nil _)
  | @token x ts h ih =>
    rw [selectorsOf]
    exact ih (List.forall_mem_cons.mp hoccurs).2
  | @plain t ts ht h ih =>
    obtain ⟨htree, hoccurs⟩ := List.forall_mem_cons.mp hoccurs
    rw [selectorsOf_cons ht h]
    refine .bind (selector_readOff hstrays hclean htree ht) fun s hs =>
      .bind (ih hoccurs) fun ss hss => .ok ?_
    obtain ⟨hplain, parts, hread⟩ := hs
    refine List.forall_mem_cons.mpr ⟨?_, hss⟩
    rintro u (rfl | ⟨all, hu⟩)
    · exact ⟨t, parts, hread⟩
    · rw [hplain] at hu
      cases hu
  | @extended t parts ts hparts ht h ih =>
    obtain ⟨htree, hoccurs⟩ := List.forall_mem_cons.mp hoccurs
    obtain ⟨hclause, hoccurs⟩ := List.forall_mem_cons.mp hoccurs
    rw [selectorsOf_extended ht]
    refine .bind (elements_readOff hstrays hclean htree ht) fun es hes => ?_
    refine .bind (extendTargets_readOff hstrays hclean hclause hparts) fun targets htargets => ?_
    refine .bind (ih hoccurs) fun ss hss => .ok (List.forall_mem_cons.mpr ⟨?_, hss⟩)
    rintro u (rfl | ⟨all, hu⟩)
    · exact ⟨t, hes targets⟩
    · exact htargets (u, all) hu

end Clean

end Reading

/-- All selectors of a stylesheet that was read, and those that they extend, are read off the
source. -/
theorem Ruleset.comeFrom_ofText {source : String} {sheet : Ruleset}
    (h : Ruleset.ofText source = .ok sheet) :
    ∀ n ∈ sheet.rules, n.HeadedBy fun selectors => ∀ s ∈ selectors, s.ComesFrom source := by
  obtain ⟨hstrays, hclean, -⟩ := exists_of_ofText h
  refine headedBy_ofText h fun {list} hoccurs hlist _ => ?_
  exact Reading.selectorsOf_comeFrom hstrays hclean (fun t ht => hoccurs.child ht) hlist

/-- **Just the ampersand tokens of a selector refer to the selector around it** if and only if no
other piece of the source inside of its elements, such as a string or a name with escapes, has an
ampersand in it.  So it is for the selectors of all rule sets in a stylesheet that was read, and for
those that they extend. -/
theorem Ruleset.references_ofText {source : String} {sheet : Ruleset}
    (h : Ruleset.ofText source = .ok sheet) :
    ∀ n ∈ sheet.rules, n.HeadedBy fun selectors => ∀ s ∈ selectors, ∀ u,
      (u = s ∨ ∃ all, (u, all) ∈ s.extending) →
      ∃ t parts, u.ReadOff source t parts ∧
      (u.RefersByTokens t parts ↔ ∀ qs ∈ parts, Quiet qs) := by
  intro n hn selectors rules root hruleset s hs u hu
  obtain ⟨t, parts, hread⟩ := comeFrom_ofText h n hn selectors rules root hruleset s hs u hu
  exact ⟨t, parts, hread, hread.refersByTokens_iff⟩

/-- An ampersand in a string around does no harm: the inner selector refers to it by its token. -/
theorem Ruleset.references_ofText_nested : ∃ sheet outer s rules t parts,
    Ruleset.ofText ".a[x='y']\x7b&.b\x7bc:d\x7d\x7d" = .ok sheet ∧
      sheet.rules = [.ruleset outer [.ruleset [s] rules false] false] ∧
      s.ReadOff ".a[x='y']\x7b&.b\x7bc:d\x7d\x7d" t parts ∧ s.RefersByTokens t parts ∧
      t.HasAmpersand ∧
      (joinAll outer [s]).map (text false) = [".a[x='y'].b"] := by
  obtain ⟨sheet, outer, inner, rules, hsheet, hrules, htest⟩ :=
    exists_nested ".a[x='y']\x7b&.b\x7bc:d\x7d\x7d"
      (fun outer inner => decide (inner.map hasParent = [true] ∧
        (joinAll outer inner).map (text false) = [".a[x='y'].b"]))
      (by decide +kernel)
  obtain ⟨hparents, htexts⟩ := of_decide_eq_true htest
  obtain ⟨s, rfl, hparent⟩ := List.map_eq_singleton_iff.mp hparents
  have hpieces : ∀ p ∈ pieces ".a[x='y']\x7b&.b\x7bc:d\x7d\x7d".toList, '&' ∈ p.text →
      p.isReference = true := by
    decide +kernel
  obtain ⟨t, parts, hread, hrefers⟩ :=
    references_ofText hsheet _ (hrules ▸ List.mem_cons_self) _ _ _
    (.block List.mem_cons_self .self) s List.mem_cons_self _ (.inl rfl)
  have htokens := hrefers.mpr fun qs hqs p hp => hpieces p (hread.covers.mem_pieces hqs hp)
  exact ⟨sheet, outer, s, rules, t, parts, hsheet, hrules, hread, htokens,
    htokens.hasParent.mp hparent, htexts⟩

/-- An ampersand in the string of an attribute is taken for a reference. -/
theorem Ruleset.references_ofText_string : ∃ sheet outer s rules,
    Ruleset.ofText ".a\x7b[x='&']\x7bb:c\x7d\x7d" = .ok sheet ∧
      sheet.rules = [.ruleset outer [.ruleset [s] rules false] false] ∧
      (∀ x ∈ (Lexing.ofText ".a\x7b[x='&']\x7bb:c\x7d\x7d").tokens, x.kind ≠ .ampersand) ∧
      s.hasParent = true ∧ (joinAll outer [s]).map (text false) = ["[x='.a']"] ∧
      ∀ t parts, s.ReadOff ".a\x7b[x='&']\x7bb:c\x7d\x7d" t parts → ¬ s.RefersByTokens t parts := by
  obtain ⟨sheet, outer, inner, rules, hsheet, hrules, htest⟩ :=
    exists_nested ".a\x7b[x='&']\x7bb:c\x7d\x7d"
      (fun outer inner => decide (inner.map hasParent = [true] ∧
        (joinAll outer inner).map (text false) = ["[x='.a']"]))
      (by decide +kernel)
  obtain ⟨hparents, htexts⟩ := of_decide_eq_true htest
  obtain ⟨s, rfl, hparent⟩ := List.map_eq_singleton_iff.mp hparents
  have hnone : ∀ x ∈ (Lexing.ofText ".a\x7b[x='&']\x7bb:c\x7d\x7d").tokens,
      x.kind ≠ .ampersand := by
    decide +kernel
  refine ⟨sheet, outer, s, rules, hsheet, hrules, hnone, hparent, htexts,
    fun t parts hread hrefers => ?_⟩
  obtain ⟨x, hx, hkind⟩ := hrefers.hasParent.mp hparent
  exact hnone x ((Parse.leaves_infix (exists_of_ofText hsheet).2.1 hread.occurs).subset hx) hkind

end LessCss
