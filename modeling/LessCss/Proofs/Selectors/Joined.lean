import Mathlib.Algebra.Group.Nat.Defs
import LessCss.Proofs.Evaluation.Termination
import LessCss.Proofs.Selectors.Heads

/-!
# Joined selectors

The text of a selector inside of another one depends on the two texts alone (`Selector.text_join`):
each ampersand is replaced by the outer text, or, if there is none, the outer text and a blank go in
front.  That elements and combinators lie behind the texts makes no difference, as no combinator is
written with an ampersand, and as what is written in front of the first element is, but for a blank,
what is written in front of it behind others.

Lists of selectors, each inside of the one before, are joined to one selector for each choice of one
out of each list (`Selector.choices`), the choices being in lexicographic order
(`Selector.foldl_joinAll`).

Evaluation comes to a rule inside of rule sets with certain lists of selectors (`Config.Under`),
through blocks and calls of mixins, and what it joins are just these lists
(`Config.Under.selectors_eq`).  In a stylesheet that was read none of them is empty
(`Config.Under.areHeads`).
-/

namespace LessCss

/-- What is written before the first element of a selector is written behind a blank if others stand
before it; an element without combinator becomes a descendant. -/
theorem Combinator.text_behind (c : Combinator) :
    (if c = .none then descendant else c).text false false = " " ++ c.text false true := by
  cases c <;> rfl

namespace Selector

/-! ## The text of a joined selector -/

/-- A text inside of another one. -/
def joinText (outer inner : String) : String :=
  if inner.toList.contains '&' then String.ofList (replaceParent outer.toList inner.toList)
  else outer ++ " " ++ inner

section Texts

variable {outer cs ds : List Char} {es fs : List Element} {compress : Bool}

/-- Replacing ampersands goes along a text. -/
theorem replaceParent_append :
    replaceParent outer (cs ++ ds) = replaceParent outer cs ++ replaceParent outer ds :=
  List.flatMap_append

/-- A text without ampersands is left as it is. -/
theorem replaceParent_eq_self (h : '&' ∉ cs) : replaceParent outer cs = cs := by
  induction cs with
  | nil => rfl
  | cons c cs ih =>
    obtain ⟨hc, hcs⟩ := not_or.mp (mt List.mem_cons.mpr h)
    have hother : (c == '&') = false := beq_false_of_ne (Ne.symm hc)
    rw [replaceParent, List.flatMap_cons, hother]
    exact congrArg (c :: ·) (ih hcs)

theorem tailText_append :
    tailText compress (es ++ fs) = tailText compress es ++ tailText compress fs := by
  induction es with
  | nil => simp [tailText]
  | cons e es ih => simp [tailText, ih, String.append_assoc]

/-- No combinator is written with an ampersand. -/
theorem ampersand_notMem_combinator (c : Combinator) (compress isFirst : Bool) :
    '&' ∉ (c.text compress isFirst).toList := by
  cases c <;> cases compress <;> cases isFirst <;> decide

/-- What is written of elements has an ampersand in it just if one of their texts has. -/
theorem ampersand_mem_tailText : '&' ∈ (tailText compress es).toList ↔
    ∃ e ∈ es, '&' ∈ e.text.toList := by
  induction es with
  | nil => simp [tailText]
  | cons e es ih => simp [tailText, ih, ampersand_notMem_combinator]

/-- A selector refers to the one around it just if there is an ampersand in its text. -/
theorem hasParent_iff (s : Selector) : s.hasParent = true ↔ '&' ∈ (s.text compress).toList := by
  obtain ⟨es, extending⟩ := s
  cases es with
  | nil => simp [hasParent, text, elements]
  | cons e es =>
    simp [hasParent, text, elements, ampersand_mem_tailText, ampersand_notMem_combinator]

/-- A selector refers to its parent just if its text has an ampersand in it. -/
theorem contains_ampersand (s : Selector) :
    (s.text compress).toList.contains '&' = s.hasParent := by
  rw [Bool.eq_iff_iff, hasParent_iff, List.contains_iff_mem]

theorem toList_tailText_replaced :
    (tailText compress
      (es.map fun e =>
        { e with text := String.ofList (replaceParent outer e.text.toList) })).toList =
      replaceParent outer (tailText compress es).toList := by
  induction es with
  | nil => rfl
  | cons e es ih =>
    simp only [List.map_cons, tailText, String.toList_append, String.toList_ofList, ih,
      replaceParent_append,
      replaceParent_eq_self (ampersand_notMem_combinator e.combinator compress false)]

/-- A joined selector has elements. -/
theorem elements_join_ne_nil {p s : Selector} (hs : s.elements ≠ []) :
    (join p s).elements ≠ [] := by
  unfold join
  split
  · simpa [elements] using hs
  · split
    · next hnil => exact absurd hnil hs
    · simp [elements]

/-- **The text of a joined selector is joined of the two texts.** -/
theorem text_join {p s : Selector} (hp : p.elements ≠ []) (hs : s.elements ≠ []) :
    (join p s).text false = joinText (p.text false) (s.text false) := by
  unfold joinText
  rw [contains_ampersand]
  obtain ⟨es, extending⟩ := s
  obtain ⟨fs, others⟩ := p
  obtain ⟨e, es, rfl⟩ := List.exists_cons_of_ne_nil hs
  obtain ⟨f, fs, rfl⟩ := List.exists_cons_of_ne_nil hp
  unfold join
  split
  · refine String.toList_inj.mp ?_
    simp only [text, elements, List.map_cons, String.toList_append, String.toList_ofList,
      toList_tailText_replaced, replaceParent_append,
      replaceParent_eq_self (ampersand_notMem_combinator e.combinator false true)]
  · -- of the first element only the combinator changes, and others now stand before it
    have hfirst : (if e.combinator = .none then { e with combinator := .descendant } else e) =
        ⟨if e.combinator = .none then .descendant else e.combinator, e.text⟩ := by
      split <;> rfl
    simp only [text, elements, List.cons_append, tailText_append, tailText, hfirst,
      Combinator.text_behind, String.append_assoc]

end Texts

/-! ## One selector for each choice -/

/-- All choices of one item out of each list, those with the same first item side by side. -/
def choices {α : Type} : List (List α) → List (List α)
  | [] => [[]]
  | l :: ls => l.flatMap fun a => (choices ls).map (a :: ·)

section Choices

variable {α : Type} {ls : List (List α)}

/-- There are as many choices as the product of the numbers of items. -/
theorem length_choices (ls : List (List α)) : (choices ls).length = (ls.map List.length).prod := by
  induction ls with
  | nil => rfl
  | cons l ls ih => simp [choices, ih, List.length_flatMap]

/-- Whatever order the lists are in, the choices are in the lexicographic order of it. -/
theorem pairwise_choices {before : α → α → Prop} (h : ∀ l ∈ ls, l.Pairwise before) :
    (choices ls).Pairwise (List.Lex before) := by
  induction ls with
  | nil => exact List.pairwise_singleton _ _
  | cons l ls ih =>
    obtain ⟨hl, hls⟩ := List.forall_mem_cons.mp h
    refine List.pairwise_flatMap.mpr ⟨fun a _ => ?_, hl.imp fun hab => ?_⟩
    · exact List.pairwise_map.mpr ((ih hls).imp fun h => .cons h)
    · intro x hx y hy
      obtain ⟨xs, -, rfl⟩ := List.mem_map.mp hx
      obtain ⟨ys, -, rfl⟩ := List.mem_map.mp hy
      exact .rel hab

/-- Each item of a choice comes from one of the lists. -/
theorem mem_of_mem_choices {as : List α} (h : as ∈ choices ls) : ∀ a ∈ as, ∃ l ∈ ls, a ∈ l := by
  induction ls generalizing as with
  | nil =>
    obtain rfl := List.mem_singleton.mp h
    exact List.forall_mem_nil _
  | cons l ls ih =>
    obtain ⟨a, ha, h⟩ := List.mem_flatMap.mp h
    obtain ⟨as, has, rfl⟩ := List.mem_map.mp h
    refine List.forall_mem_cons.mpr ⟨⟨l, List.mem_cons_self, ha⟩, fun b hb => ?_⟩
    obtain ⟨l', hl', hbl⟩ := ih has b hb
    exact ⟨l', List.mem_cons_of_mem _ hl', hbl⟩

end Choices

/-- The selectors of a rule set: there is one, and each has an element. -/
def AreHeads (own : List Selector) : Prop := own ≠ [] ∧ ∀ s ∈ own, s.elements ≠ []

/-- A selector inside of the one before, and so on from the outermost. -/
def nest : List Selector → Selector
  | [] => .ofElements []
  | s :: ss => ss.foldl join s

/-- A text inside of the one before, and so on from the outermost. -/
def nestText : List String → String
  | [] => ""
  | t :: ts => ts.foldl joinText t

/-- The text of selectors joined along a chain is joined of their texts. -/
theorem text_foldl_join {s : Selector} {ss : List Selector} (hs : s.elements ≠ [])
    (hss : ∀ s ∈ ss, s.elements ≠ []) :
    (ss.foldl join s).text false = (ss.map (text false)).foldl joinText (s.text false) := by
  induction ss generalizing s with
  | nil => rfl
  | cons t ss ih =>
    obtain ⟨ht, hss⟩ := List.forall_mem_cons.mp hss
    rw [List.foldl_cons, ih (elements_join_ne_nil ht) hss, text_join hs ht, List.map_cons,
      List.foldl_cons]

theorem text_nest {ss : List Selector} (hss : ∀ s ∈ ss, s.elements ≠ []) :
    (nest ss).text false = nestText (ss.map (text false)) := by
  cases ss with
  | nil => rfl
  | cons s ss =>
    obtain ⟨hs, hss⟩ := List.forall_mem_cons.mp hss
    exact text_foldl_join hs hss

/-- Joining lists of selectors along a chain gives all choices, those of the first list first. -/
theorem foldl_joinAll_of_ne_nil {parents : List Selector} {chain : List (List Selector)}
    (hparents : parents ≠ []) (hchain : ∀ own ∈ chain, own ≠ []) :
    chain.foldl joinAll parents = parents.flatMap fun p => (choices chain).map fun ss =>
      ss.foldl join p := by
  induction chain generalizing parents with
  | nil => simp [choices]
  | cons own chain ih =>
    obtain ⟨hown, hchain⟩ := List.forall_mem_cons.mp hchain
    have hjoined : joinAll parents own = parents.flatMap fun p => own.map (join p) := by
      rw [joinAll, if_neg (by simpa using hparents)]
    -- what comes out of one list is not empty, so that the next list is joined to it and does not
    -- replace it
    have hne : joinAll parents own ≠ [] := by
      obtain ⟨p, hp⟩ := List.exists_mem_of_ne_nil _ hparents
      obtain ⟨s, hs⟩ := List.exists_mem_of_ne_nil _ hown
      rw [hjoined]
      exact List.ne_nil_of_mem (List.mem_flatMap.mpr ⟨p, hp, List.mem_map_of_mem hs⟩)
    rw [List.foldl_cons, ih hne hchain, hjoined, List.flatMap_assoc]
    simp only [choices, List.map_flatMap, List.flatMap_map, List.map_map, Function.comp_def,
      List.foldl_cons]

/-- **Lists that are joined one inside of the other give one selector for each choice**, of which
the selectors of the outermost list come first. -/
theorem foldl_joinAll {chain : List (List Selector)} (hne : chain ≠ [])
    (hchain : ∀ own ∈ chain, own ≠ []) :
    chain.foldl joinAll [] = (choices chain).map nest := by
  obtain ⟨own, chain, rfl⟩ := List.exists_cons_of_ne_nil hne
  obtain ⟨hown, hchain⟩ := List.forall_mem_cons.mp hchain
  have hfirst : joinAll [] own = own := rfl
  rw [List.foldl_cons, hfirst, foldl_joinAll_of_ne_nil hown hchain]
  simp only [choices, List.map_flatMap, List.map_map, Function.comp_def, nest]

end Selector

open Evaluation Selector

/-! ## Rule sets in the course of evaluation -/

namespace Config

/-- Evaluation of a stylesheet comes to a rule inside of rule sets with some lists of selectors,
their holes filled, the outermost first.  Some at-rules forget the rule sets around. -/
inductive Under (o : Options) (sheet : List Node) : List (List Selector) → Config → Prop
  | top {rule} (h : rule ∈ sheet) :
  Under o sheet [] ⟨(Context.ofOptions o).inFrame (.ofRules sheet), rule⟩
  | ruleset {chain c selectors rules own rule}
    (outer : Under o sheet chain ⟨c, .ruleset selectors rules false⟩)
      (filled : selectors.mapM (fillSelector .unbounded c) = .ok own) (h : rule ∈ rules) :
      Under o sheet (chain ++ [own])
        ⟨(c.underSelectors (joinAll c.selectors own)).inFrame (.ofRules rules), rule⟩
  | media {chain c features rules rule} (outer : Under o sheet chain ⟨c, .media features rules⟩)
    (h : rule ∈ rules) :
      Under o sheet chain ⟨c.inFrame (.ofRules rules), rule⟩
  | atRule {chain c name header rules rule}
    (outer : Under o sheet chain ⟨c, .atRule name header (some rules)⟩)
      (h : rule ∈ rules) :
      Under o sheet (if keepsSelectors name then chain else [])
        ⟨(insideAtRule c name).inFrame (.ofRules rules), rule⟩
  | call {chain s c rules rule} (outer : Under o sheet chain s) (h : Expands .unbounded s c rules)
      (hrule : rule ∈ rules) : Under o sheet chain ⟨c.inFrame (.ofRules rules), rule⟩

variable {o : Options} {sheet : List Node} {chain : List (List Selector)} {s : Config}

/-- **The selectors around a rule are joined of the lists around it.** -/
theorem Under.selectors_eq (h : Under o sheet chain s) :
    s.context.selectors = chain.foldl joinAll [] := by
  induction h with
  | top => rfl
  | ruleset _ _ _ ih =>
    rw [List.foldl_append, ← ih]
    rfl
  | media _ _ ih => exact ih
  | @atRule chain c name header rules rule _ _ ih =>
    unfold insideAtRule
    split
    · exact ih
    · rfl
  | call _ h _ ih =>
    obtain ⟨-, frame, rfl, -⟩ := h.cases
    exact ih

/-! ### Lists of a sort -/

/-- The rule sets in the mixins in scope have selectors of a sort. -/
def ScopesHeadedBy (S : List Selector → Prop) (c : Context) : Prop :=
  ∀ f ∈ c.frames, ∀ m ∈ f.mixins, ∀ n ∈ m.2.rules, n.HeadedBy S

variable {S : List Selector → Prop}

/-- The scopes stay headed by selectors of a sort inside of rules that are. -/
theorem ScopesHeadedBy.inFrame {c : Context} {rules : List Node} (hc : ScopesHeadedBy S c)
    (hrules : ∀ n ∈ rules, n.HeadedBy S) : ScopesHeadedBy S (c.inFrame (.ofRules rules)) := by
  refine List.forall_mem_cons.mpr ⟨fun m hm n hn => ?_, hc⟩
  rcases Frame.mem_mixins_ofRules hm with ⟨-, hmixin⟩ | ⟨-, selectors, root, -, hruleset⟩
  · exact (hrules _ hmixin).block hn
  · exact (hrules _ hruleset).block hn

/-- What holds of the selectors of all rule sets in a stylesheet holds of all that evaluation comes
to. -/
theorem Under.headedBy (hsheet : ∀ n ∈ sheet, n.HeadedBy S) (h : Under o sheet chain s) :
    ScopesHeadedBy S s.context ∧ s.node.HeadedBy S := by
  induction h with
  | top h => exact ⟨ScopesHeadedBy.inFrame nofun hsheet, hsheet _ h⟩
  | ruleset _ _ h ih => exact ⟨ScopesHeadedBy.inFrame ih.1 fun n hn => ih.2.block hn, ih.2.block h⟩
  | media _ h ih => exact ⟨ScopesHeadedBy.inFrame ih.1 fun n hn => ih.2.block hn, ih.2.block h⟩
  | @atRule chain c name header rules rule _ h ih =>
    have hinside : ScopesHeadedBy S (insideAtRule c name) := by
      rw [ScopesHeadedBy, (sameScope_insideAtRule c name).frames]
      exact ih.1
    exact ⟨hinside.inFrame fun n hn => ih.2.block hn, ih.2.block h⟩
  | @call chain s c rules rule _ h hrule ih =>
    cases h with
    | @rules c name args important offset m values frame inside found evaluated bound enter =>
      obtain ⟨f, hf, hm⟩ := Context.mem_of_mixin? found
      have hrules : ∀ n ∈ m.rules, n.HeadedBy S := ih.1 f hf _ hm
      -- the scope of the parameters holds values only, no mixins
      have hframe : ScopesHeadedBy S (inside.inFrame frame) := by
        obtain ⟨-, rfl⟩ := Context.inMixin_eq_ok enter
        refine List.forall_mem_cons.mpr ⟨?_, ih.1⟩
        rw [(argumentFrame_cases bound).1]
        exact List.forall_mem_nil _
      exact ⟨hframe.inFrame hrules, hrules _ hrule⟩

end Config

/-! ### No list is empty -/

/-- Selectors keep their elements when holes are filled. -/
theorem Selector.AreHeads.filled {d : Deeper} {c : Context} {selectors own : List Selector}
    (hs : AreHeads selectors) (h : selectors.mapM (fillSelector d c) = .ok own) : AreHeads own := by
  obtain ⟨hlength, hvalues⟩ := values_of_mapM h
  constructor
  · rintro rfl
    exact hs.1 (List.length_eq_zero_iff.mp hlength.symm)
  · intro t ht
    obtain ⟨s, hmem, hfill⟩ := hvalues t ht
    obtain ⟨es, extending⟩ := s
    obtain ⟨filled, helements, hfill⟩ := exists_of_bind_eq_ok hfill
    obtain ⟨targets, -, hfill⟩ := exists_of_bind_eq_ok hfill
    cases hfill
    rintro rfl
    exact hs.2 _ hmem (List.length_eq_zero_iff.mp (values_of_mapM helements).1.symm)

/-- Every rule set in a stylesheet that was read has a selector, and each selector an element. -/
theorem Ruleset.areHeads_ofText {source : String} {sheet : Ruleset}
    (h : Ruleset.ofText source = .ok sheet) :
    ∀ n ∈ sheet.rules, n.HeadedBy AreHeads := by
  refine headedBy_ofText h fun {list} _ hlist hphrase ss hss => ?_
  refine ⟨Reading.selectorsOf_ne_nil _ _ hphrase ss hss, fun s hs => ?_⟩
  obtain ⟨e, more, helements, -⟩ := (Reading.selectorsOf_stand _ hlist ss hss s hs).linked
  rw [helements]
  exact List.cons_ne_nil _ _

/-- The lists around a rule are not empty, nor are their selectors, in a stylesheet of such rule
sets. -/
theorem Config.Under.areHeads {o : Options} {sheet : List Node} {chain : List (List Selector)}
    {s : Config} (hsheet : ∀ n ∈ sheet, n.HeadedBy AreHeads) (h : Under o sheet chain s) :
    ∀ own ∈ chain, AreHeads own := by
  induction h with
  | top => exact List.forall_mem_nil _
  | ruleset outer filled _ ih =>
    have hheads : AreHeads _ := (outer.headedBy hsheet).2 _ _ _ .self
    exact List.forall_mem_append.mpr ⟨ih, List.forall_mem_singleton.mpr (hheads.filled filled)⟩
  | media _ _ ih => exact ih
  | atRule _ _ ih =>
    split
    · exact ih
    · exact List.forall_mem_nil _
  | call _ _ _ ih => exact ih

/-! ## The product of the lists -/

namespace Selector

/-- Selectors are the product of lists that lie one inside of the other: one for each choice, in
lexicographic order, whose text is joined of the texts of the choice. -/
structure IsProduct (chain : List (List Selector)) (joined : List Selector) : Prop where
  selectors : joined = (choices chain).map nest
  length : joined.length = (chain.map List.length).prod
  order : ∀ before : Selector → Selector → Prop, (∀ own ∈ chain, own.Pairwise before) →
    (choices chain).Pairwise (List.Lex before)
  texts : joined.map (text false) = (choices chain).map fun ss => nestText (ss.map (text false))

/-- Joining the lists of a chain gives their product. -/
theorem isProduct_foldl {chain : List (List Selector)} (hne : chain ≠ [])
    (hchain : ∀ own ∈ chain, AreHeads own) :
    IsProduct chain (chain.foldl joinAll []) := by
  have hjoined := foldl_joinAll hne fun own hown => (hchain own hown).1
  refine ⟨hjoined, ?_, fun before h => pairwise_choices h, ?_⟩
  · rw [hjoined, List.length_map, length_choices]
  · rw [hjoined, List.map_map]
    refine List.map_congr_left fun ss hss => text_nest fun s hs => ?_
    -- only members of the lists are chosen, and these have elements
    obtain ⟨own, hown, hs⟩ := mem_of_mem_choices hss s hs
    exact (hchain own hown).2 s hs

/-- **Selectors are joined text by text, and lists of them choice by choice.**  The text of a
selector inside of another one has the outer text in the place of every ampersand, or in front if
there is none.  Lists that lie one inside of the other give their product; and the selectors that
any rule set gets in the course of evaluation, in a stylesheet that was read, are the product of the
lists of the rule sets around and its own. -/
theorem joined_texts :
    (∀ p s : Selector, p.elements ≠ [] → s.elements ≠ [] →
      (join p s).text false =
        if s.hasParent then String.ofList
          (replaceParent (p.text false).toList (s.text false).toList)
        else p.text false ++ " " ++ s.text false) ∧
    (∀ chain : List (List Selector), chain ≠ [] → (∀ own ∈ chain, AreHeads own) →
      IsProduct chain (chain.foldl joinAll [])) ∧
    ∀ (source : String) (sheet : Ruleset) (o : Options) (chain : List (List Selector)) (c : Context)
      (selectors own : List Selector) (rules : List Node), Ruleset.ofText source = .ok sheet →
      Config.Under o sheet.rules chain ⟨c, .ruleset selectors rules false⟩ →
      selectors.mapM (fillSelector .unbounded c) = .ok own →
      IsProduct (chain ++ [own]) (joinAll c.selectors own) := by
  refine ⟨fun p s hp hs => ?_, fun chain => isProduct_foldl, ?_⟩
  · rw [text_join hp hs, joinText, contains_ampersand]
  · intro source sheet o chain c selectors own rules hread hunder hfilled
    have hsheet := Ruleset.areHeads_ofText hread
    have hheads : AreHeads selectors := (hunder.headedBy hsheet).2 _ _ _ .self
    have hjoined : joinAll c.selectors own = (chain ++ [own]).foldl joinAll [] := by
      rw [List.foldl_append, ← hunder.selectors_eq]
      rfl
    rw [hjoined]
    refine isProduct_foldl (by simp) (List.forall_mem_append.mpr ⟨hunder.areHeads hsheet, ?_⟩)
    exact List.forall_mem_singleton.mpr (hheads.filled hfilled)

/-- Selectors that extend nothing are known by their elements. -/
theorem eq_ofElements {ss : List Selector} {ess : List (List Element)}
    (h : ss.map elements = ess ∧ (ss.all fun s => s.extending.isEmpty) = true) :
    ss = ess.map ofElements := by
  obtain ⟨rfl, hplain⟩ := h
  rw [List.map_map]
  refine (List.map_id ss).symm.trans (List.map_congr_left fun s hs => ?_)
  obtain ⟨es, extending⟩ := s
  obtain rfl : extending = [] := List.isEmpty_iff.mp (List.all_eq_true.mp hplain _ hs)
  rfl

/-- Two lists with two selectors in the inner one: two texts for each of the outer selectors. -/
theorem joined_texts_nested : ∃ sheet chain c selectors own rules,
    Ruleset.ofText ".a,.b\x7b.c,&>.d\x7be:f\x7d\x7d" = .ok sheet ∧
      Config.Under {} sheet.rules chain ⟨c, .ruleset selectors rules false⟩ ∧
      selectors.mapM (fillSelector .unbounded c) = .ok own ∧
      IsProduct (chain ++ [own]) (joinAll c.selectors own) ∧
      (joinAll c.selectors own).map (text false) = [".a .c", ".a > .d", ".b .c", ".b > .d"] := by
  obtain ⟨sheet, outer, inner, rules, hsheet, hrules, htest⟩ := Ruleset.exists_nested
    ".a,.b\x7b.c,&>.d\x7be:f\x7d\x7d"
    (fun outer inner => decide ((outer.map elements = [[⟨.none, ".a"⟩], [⟨.none, ".b"⟩]] ∧
        (outer.all fun s => s.extending.isEmpty) = true) ∧
      inner.map elements = [[⟨.none, ".c"⟩], [⟨.none, "&"⟩, ⟨.child, ".d"⟩]] ∧
        (inner.all fun s => s.extending.isEmpty) = true))
    (by decide +kernel)
  obtain ⟨houter, hinner⟩ := of_decide_eq_true htest
  obtain rfl := eq_ofElements houter
  obtain rfl := eq_ofElements hinner
  have hfilled (c : Context) : ([[⟨.none, ".a"⟩], [⟨.none, ".b"⟩]].map ofElements).mapM
      (fillSelector .unbounded c) = .ok ([[⟨.none, ".a"⟩], [⟨.none, ".b"⟩]].map ofElements) := rfl
  have hfilled' (c : Context) :
      ([[⟨.none, ".c"⟩], [⟨.none, "&"⟩, ⟨.child, ".d"⟩]].map ofElements).mapM
      (fillSelector .unbounded c) =
        .ok ([[⟨.none, ".c"⟩], [⟨.none, "&"⟩, ⟨.child, ".d"⟩]].map ofElements) := rfl
  have htexts : (joinAll ([[⟨.none, ".a"⟩], [⟨.none, ".b"⟩]].map ofElements)
      ([[⟨.none, ".c"⟩], [⟨.none, "&"⟩, ⟨.child, ".d"⟩]].map ofElements)).map (text false) =
        [".a .c", ".a > .d", ".b .c", ".b > .d"] := by decide +kernel
  have hunder := Config.Under.ruleset (.top (o := {}) (hrules ▸ List.mem_cons_self)) (hfilled _)
    List.mem_cons_self
  exact ⟨sheet, _, _, _, _, _, hsheet, hunder, hfilled' _,
    joined_texts.2.2 _ _ _ _ _ _ _ _ hsheet hunder (hfilled' _), htexts⟩

end Selector

end LessCss
