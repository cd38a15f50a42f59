import LessCss.Proofs.Lexing.Parts
import LessCss.Proofs.Nesting.ReadRules

/-!
# Sources without holes

A hole starts with an at sign before a brace.  The texts in which evaluation fills holes are parts
of the source: the texts of strings and addresses, the names of properties, and those of selectors.
So nothing that is read has a hole if nowhere in the source an at sign stands before a brace, and
only references ask for variables (`Ruleset.asksByName_ofText`).
-/

namespace LessCss

open Node

/-! ## Parts of the source -/

namespace Text

theorem dropBytes_isSuffix (cs : List Char) (n : Nat) : dropBytes cs n <:+ cs := by
  induction cs generalizing n with
  | nil => exact List.nil_suffix
  | cons c cs ih =>
    unfold dropBytes
    split
    · exact List.suffix_rfl
    · exact (ih _).trans (List.suffix_cons c cs)

theorem takeBytes_isPrefix (cs : List Char) (n : Nat) : takeBytes cs n <+: cs := by
  induction cs generalizing n with
  | nil => exact List.nil_prefix
  | cons c cs ih =>
    unfold takeBytes
    split
    · exact List.nil_prefix
    · exact List.cons_prefix_cons.mpr ⟨rfl, ih _⟩

theorem slice_isInfix (cs : List Char) (start stop : Nat) : slice cs start stop <:+: cs :=
  (takeBytes_isPrefix _ _).isInfix.trans (dropBytes_isSuffix cs start).isInfix

end Text

/-- The source of a tree is a stretch of the whole source. -/
theorem Tree.sourceText_isInfix (t : Tree) (source : List Char) :
    (t.sourceText source).toList <:+: source := by
  unfold sourceText
  split
  · rw [String.toList_ofList]
    exact Text.slice_isInfix _ _ _
  · exact List.nil_infix

/-- The text of a token is a stretch of the source. -/
theorem Lexing.text_isInfix {source : String} {t : Token} (ht : t ∈ (ofText source).tokens) :
    t.text.toList <:+: source.toList := by
  obtain ⟨pre, text, post, hpieces, htext⟩ := mem_tokens_ofPieces ht
  refine ⟨Lexer.textOf pre, Lexer.textOf post, ?_⟩
  rw [htext, String.toList_ofList, ← Lexer.textOf_pieces source.toList, hpieces,
    Lexer.textOf_append, Lexer.textOf_append, Lexer.textOf_cons, Lexer.textOf_nil, List.append_nil]

/-! ## Texts in which no hole starts -/

namespace Text

/-- No at sign stands before a brace. -/
def Holeless (cs : List Char) : Prop := ¬ ['@', '\x7b'] <:+: cs

/-- A stretch of a text without holes has no holes. -/
theorem Holeless.part {cs ds : List Char} (h : Holeless ds) (hpart : cs <:+: ds) : Holeless cs :=
  fun hole => h (hole.trans hpart)

theorem holeName?_of_holeless {cs : List Char} (h : Holeless cs) : holeName? cs = none := by
  unfold holeName?
  split
  · next cs => exact absurd (List.prefix_append ['@', '\x7b'] cs).isInfix h
  · rfl

/-- A text without holes is read as plain characters only. -/
theorem partsFrom_of_holeless {cs : List Char} (h : Holeless cs) (offset : Nat) :
    partsFrom offset 0 cs = cs.map .plain := by
  induction cs generalizing offset with
  | nil => rfl
  | cons c cs ih =>
    have hrest : Holeless cs := h.part (List.suffix_cons c cs).isInfix
    simp only [partsFrom, holeName?_of_holeless h, ih hrest, List.map_cons]

/-- A text without holes asks for no variable. -/
theorem asked_of_holeless {text : String} (h : Holeless text.toList) : asked text = [] := by
  unfold asked parts
  rw [partsFrom_of_holeless h, List.filterMap_map]
  exact List.filterMap_eq_nil_iff.mpr fun _ _ => rfl

/-- In a source without holes no tree has a text that asks for a variable. -/
theorem asked_sourceText {source : List Char} (h : Holeless source) (t : Tree) :
    asked (t.sourceText source) = [] :=
  asked_of_holeless (h.part (t.sourceText_isInfix source))

end Text

/-! ## Selectors -/

theorem Selector.askedTargets_eq_nil {targets : List (Selector × Bool)}
    (h : ∀ target ∈ targets, target.1.asked = []) :
    askedTargets targets = [] := by
  induction targets with
  | nil => rfl
  | cons target targets ih =>
    obtain ⟨hhead, hrest⟩ := List.forall_mem_cons.mp h
    rw [askedTargets, hhead, ih hrest, List.append_nil]

namespace Reading

variable {source : List Char} (h : Text.Holeless source)

include h

/-- No element that is read in such a source has a hole. -/
theorem elements_asked (combinator : Combinator) (t : Tree) :
    Ensures (elements source combinator t) fun es =>
      es.flatMap (fun e => Text.asked e.text) = [] := by
  fun_induction elements source combinator t with
  | case1 => exact .ok (by simp [Text.asked_sourceText h])
  | case2 combinator p simple rest ih | case3 combinator p simple sign rest next ih =>
    refine .bind ih fun es hes => .ok ?_
    rw [List.flatMap_cons, Text.asked_sourceText h, hes, List.append_nil]
  | case4 => exact missing_ensures _ _

/-- No selector that is read in such a source has a hole. -/
theorem selector_asked (t : Tree) : Ensures (selector source t) fun s => s.asked = [] := by
  refine .bind (elements_asked h .none t) fun es hes => .ok ?_
  rw [Selector.ofElements, Selector.asked, hes, Selector.askedTargets, List.append_nil]

theorem extendTargets_asked (t : Tree) :
    Ensures (extendTargets source t) fun targets => Selector.askedTargets targets = [] := by
  have hmapped : Ensures (extendTargets source t) fun targets => ∀ target ∈ targets,
      target.1.asked = [] :=
    .mapM fun s _ => .bind (selector_asked h s) fun s hs => .ok hs
  exact fun targets ht => Selector.askedTargets_eq_nil (hmapped targets ht)

/-- None of the selectors of a rule read in such a source has a hole. -/
theorem selectorsOf_asked (ts : List Tree) :
    Ensures (selectorsOf source ts) fun ss => ∀ s ∈ ss, s.asked = [] := by
  fun_induction selectorsOf source ts with
  | case1 => exact .ok (List.forall_mem_nil _)
  | case2 token ts ih => exact ih
  | case3 t parts ts _ ih =>
    refine .bind (elements_asked h .none t) fun es hes => .bind (extendTargets_asked h _)
      fun targets htargets => ?_
    refine .bind ih fun ss hss => .ok (List.forall_mem_cons.mpr ⟨?_, hss⟩)
    rw [Selector.asked, hes, htargets, List.append_nil]
  | case4 t ts _ _ ih =>
    exact .bind (selector_asked h t) fun s hs => .bind ih fun ss hss =>
      .ok (List.forall_mem_cons.mpr ⟨hs, hss⟩)

omit h

end Reading

/-! ## What is read -/

/-- A node that asks for no variable unless it is a reference. -/
def Node.AsksByName (n : Node) : Prop := n.asked = [] ∨ ∃ name offset, n = .reference name offset

namespace Reading

/-- A rule that is read off a source without holes asks for no variable. -/
theorem ReadOff.asked {source : List Char} (h : Text.Holeless source) {t : Tree} {n : Node}
    (hread : ReadOff source t n) : n.asked = [] := by
  cases hread with
  | assignment | call | mixin | importRule | media | atRule => rfl
  | declaration => exact Text.asked_sourceText h _
  | extension hheads | ruleset hheads _ =>
    exact List.flatMap_eq_nil_iff.mpr (selectorsOf_asked h _ _ hheads)

/-- A quoted text without holes asks for variables by name only. -/
theorem quoted_asksByName {t : Token} (h : Text.Holeless t.text.toList) (escaped : Bool) :
    (quoted t escaped).AsksByName := by
  refine .inl (Text.asked_of_holeless ?_)
  rw [String.toList_ofList]
  have hinit : t.text.toList.tail.dropLast <+: t.text.toList.tail := List.dropLast_prefix _
  exact h.part (hinit.isInfix.trans (List.tail_suffix _).isInfix)

/-- A single token whose text has no holes asks for variables by name only. -/
theorem single_asksByName {t : Token} (h : Text.Holeless t.text.toList) :
    Ensures (single t) AsksByName := by
  have hnumber : Ensures (number t) AsksByName := by
    unfold number
    split
    · exact .ok (.inl rfl)
    · exact .error
  unfold single
  split
  · exact hnumber
  · exact hnumber
  · exact .ok (quoted_asksByName h false)
  · exact .ok (.inr ⟨_, _, rfl⟩)
  · exact .ok (.inr ⟨_, _, rfl⟩)
  · exact .ok (.inl (Text.asked_of_holeless h))
  · exact .ok (.inl (Text.asked_of_holeless h))
  · exact .ok (.inl rfl)

/-- Nodes read off texts without holes ask for variables by name only. -/
theorem readsNodes_asksByName : ReadsNodes (fun x => Text.Holeless x.text.toList) AsksByName where
  single := single_asksByName
  escaped h := quoted_asksByName h true
  dimension _ := .inl rfl
  keyword _ := .inl rfl
  expression _ _ _ _ := .inl rfl
  list _ := .inl rfl
  paren _ := .inl rfl
  negative _ := .inl rfl
  operation _ _ _ _ _ := .inl rfl
  call _ _ _ := .inl rfl

end Reading

/-- **What is read of a source without holes asks for variables only by references.** -/
theorem Ruleset.asksByName_ofText {source : String} (hsource : Text.Holeless source.toList)
    {sheet : Ruleset} (h : ofText source = .ok sheet) : sheet.toNode.Throughout AsksByName := by
  have htokens : ∀ t ∈ (Parse.ofText source).tree.children, t.MadeOf fun x =>
    Text.Holeless x.text.toList :=
    fun t ht x hx => hsource.part (Lexing.text_isInfix (Parse.madeOf_ofText source t ht x hx))
  obtain ⟨rules, rfl, hrules⟩ := meets_ofText Reading.readsNodes_asksByName.readsValues htokens h
  refine throughout_iff.mpr
    ⟨.inl rfl, fun n hn => (hrules n hn).throughout (fun m hm => ?_) (fun _ _ => .inl rfl) ?_⟩
  · obtain ⟨t, -, hread⟩ :=
      exists_readOff h (T := fun _ => True) (fun _ _ => trivial) (fun _ _ => trivial) hn hm
    exact .inl (hread.asked hsource)
  · exact fun v hv => hv.2

end LessCss
