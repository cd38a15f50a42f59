import LessCss.Proofs.Nesting.ReadValues
import LessCss.Proofs.Occurrence
import LessCss.Proofs.Parsing.Headings

/-!
# Where the elements of selectors come from

Every element of a selector that was read is the text of a simple selector of the source.  The
elements of one selector come in the order of the source, and behind those of a rule set come those
of the rule sets in its block (`Node.Traced`).  So the elements of selectors joined along a chain of
nested rule sets come in this order too (`Nested.located`).
-/

namespace LessCss

/-! ## Elements among tokens -/

/-- Elements that stand one after the other among some tokens, before `rest`. -/
inductive Located (source : List Char) : List Token → List Element → List Token → Prop
  | nil {tokens rest : List Token} (h : rest <:+ tokens) : Located source tokens [] rest
  | cons {u : Tree} {pre post rest : List Token} {e : Element} {es : List Element} (h : u.IsSimple)
    (htext : e.text = u.sourceText source) (hrest : Located source post es rest) :
    Located source (pre ++ u.leaves ++ post) (e :: es) rest

namespace Located

variable {source : List Char} {tokens mid rest : List Token} {es fs : List Element}

/-- The same elements among more tokens. -/
theorem around (pre post : List Token) (h : Located source tokens es rest) :
    Located source (pre ++ tokens ++ post) es (rest ++ post) := by
  induction h generalizing pre with
  | nil h =>
    obtain ⟨before, rfl⟩ := h
    exact .nil ⟨pre ++ before, by simp⟩
  | @cons u before after rest e es h htext hrest ih =>
    have hwhole : Located source (pre ++ before ++ u.leaves ++ (after ++ post)) (e :: es)
        (rest ++ post) :=
      cons h htext (by simpa using ih [])
    simpa using hwhole

/-- Elements that stand among some tokens stand among them with others before. -/
theorem behind (pre : List Token) (h : Located source tokens es rest) :
    Located source (pre ++ tokens) es rest := by
  simpa using h.around pre []

/-- Less is said of what follows. -/
theorem narrow {rest' : List Token} (h : Located source tokens es rest) (hrest : rest' <:+ rest) :
    Located source tokens es rest' := by
  induction h with
  | nil h => exact .nil (hrest.trans h)
  | cons h htext _ ih => exact .cons h htext (ih hrest)

/-- Elements side by side stand one after the other. -/
theorem append (h : Located source tokens es mid) (h' : Located source mid fs rest) :
    Located source tokens (es ++ fs) rest := by
  induction h with
  | nil h =>
    obtain ⟨pre, rfl⟩ := h
    exact h'.behind pre
  | cons h htext _ ih => exact .cons h htext (ih h')

/-- What stands between the elements does not matter. -/
theorem withCombinator {e : Element} (c : Combinator) (h : Located source tokens (e :: es) rest) :
    Located source tokens ({ e with combinator := c } :: es) rest := by
  cases h with
  | cons h htext hrest => exact .cons h htext hrest

end Located

namespace Selector

/-- The elements of a selector that was read: the first one has no combinator, and all others have
one. -/
def Linked (es : List Element) : Prop :=
  ∃ e more, es = e :: more ∧ e.combinator = .none ∧ ∀ f ∈ more, f.combinator ≠ .none

/-- Elements of a selector that stand among some tokens, before `rest`. -/
structure Stands (source : List Char) (tokens : List Token) (s : Selector) (rest : List Token) :
    Prop where
  located : Located source tokens s.elements rest
  linked : Linked s.elements

/-- A selector stands among some tokens with others around them as well. -/
theorem Stands.around {source : List Char} {tokens rest : List Token} {s : Selector}
    (pre post : List Token) (h : s.Stands source tokens rest) :
    s.Stands source (pre ++ tokens ++ post) (rest ++ post) :=
  ⟨h.located.around pre post, h.linked⟩

theorem Stands.behind {source : List Char} {tokens rest : List Token} {s : Selector}
    (pre : List Token) (h : s.Stands source tokens rest) : s.Stands source (pre ++ tokens) rest :=
  ⟨h.located.behind pre, h.linked⟩

/-- What stands before some tokens stands before any later ones. -/
theorem Stands.narrow {source : List Char} {tokens rest rest' : List Token} {s : Selector}
    (h : s.Stands source tokens rest) (hrest : rest' <:+ rest) : s.Stands source tokens rest' :=
  ⟨h.located.narrow hrest, h.linked⟩

/-- A selector that does not refer to the one around it becomes a descendant. -/
theorem join_of_own {s : Selector} {e : Element} {more : List Element} (hown : s.hasParent = false)
    (hs : s.elements = e :: more) (he : e.combinator = .none) (parent : Selector) :
    join parent s = .mk (parent.elements ++ { e with combinator := .descendant } :: more)
      s.extending := by
  simp [join, hown, hs, he]

/-- A selector inside of another one, to which it does not refer, stands behind it. -/
theorem Stands.join {source : List Char} {tokens mid rest : List Token} {parent s : Selector}
    (hparent : parent.Stands source tokens mid) (hs : s.Stands source mid rest)
    (hown : s.hasParent = false) :
    (Selector.join parent s).Stands source tokens rest := by
  obtain ⟨e, more, helements, he, hmore⟩ := hs.linked
  obtain ⟨f, others, hf, hfirst, hothers⟩ := hparent.linked
  have hlocated := helements ▸ hs.located
  rw [join_of_own hown helements he]
  refine ⟨hparent.located.append (hlocated.withCombinator .descendant), f, _, by rw [hf]; rfl,
    hfirst, ?_⟩
  exact List.forall_mem_append.mpr
    ⟨hothers, List.forall_mem_cons.mpr ⟨fun h => Combinator.noConfusion h, hmore⟩⟩

end Selector

/-- Every symbol is that of a combinator other than none. -/
theorem Combinator.ofSymbol_ne_none (symbol : String) : ofSymbol symbol ≠ none := by
  unfold ofSymbol
  split <;> decide

namespace Reading

open Selector

/-! ## Reading selectors -/

/-- The elements of a chain stand among its tokens, the first with the combinator given. -/
theorem elements_located (source : List Char) {t : Tree} (h : t.Chained) : ∀ combinator,
    Ensures (elements source combinator t) fun es => Located source t.leaves es [] ∧
      ∃ e more, es = e :: more ∧ e.combinator = combinator ∧ ∀ f ∈ more, f.combinator ≠ .none := by
  have hmany {c : Combinator} {es : List Element} (hc : c ≠ .none)
      (h : ∃ e more, es = e :: more ∧ e.combinator = c ∧ ∀ f ∈ more, f.combinator ≠ .none) :
      ∀ f ∈ es, f.combinator ≠ .none := by
    obtain ⟨e, more, rfl, he, hmore⟩ := h
    exact List.forall_mem_cons.mpr ⟨he ▸ hc, hmore⟩
  induction h with
  | @last simple h =>
    intro combinator
    rw [elements]
    refine .ok ⟨?_, _, [], rfl, rfl, List.forall_mem_nil _⟩
    have hone :
        Located source ([] ++ simple.leaves ++ []) [⟨combinator, simple.sourceText source⟩] [] :=
      .cons h rfl (.nil (List.suffix_refl []))
    simpa using hone
  | @blank simple rest h hrest ih =>
    intro combinator
    rw [elements]
    refine .bind (ih .descendant) fun es hrest => ?_
    obtain ⟨hes, hlinked⟩ := hrest
    refine .ok ⟨?_, _, es, rfl, rfl, hmany (c := .descendant) (by decide) hlinked⟩
    have hone :
        Located source ([] ++ simple.leaves ++ rest.leaves)
          (⟨combinator, simple.sourceText source⟩ :: es) [] :=
      .cons h rfl hes
    simpa using hone
  | @sign simple sign rest h _ hrest ih =>
    intro combinator
    rw [elements]
    refine .bind (ih _) fun es hrest => ?_
    obtain ⟨hes, hlinked⟩ := hrest
    refine .ok ⟨?_, _, es, rfl, rfl, hmany (Combinator.ofSymbol_ne_none _) hlinked⟩
    have hone : Located source ([] ++ simple.leaves ++ (sign.leaves ++ rest.leaves))
        (⟨combinator, simple.sourceText source⟩ :: es) [] := .cons h rfl (hes.behind sign.leaves)
    simpa using hone

/-- The elements of a selector stand among its tokens, and are linked by combinators. -/
theorem elements_stands (source : List Char) {t : Tree} (h : t.Chained) :
    Ensures (elements source .none t) fun es => Located source t.leaves es [] ∧ Linked es :=
  elements_located source h .none

/-- A chain without clause behind it is read as a selector. -/
theorem selectorsOf_cons {source : List Char} {t : Tree} {ts : List Tree} (ht : t.Chained)
    (h : Tree.Listed ts) :
    selectorsOf source (t :: ts) = (do
      let head ← selector source t
      return head :: (← selectorsOf source ts)) := by
  rw [selectorsOf]
  · rintro x rfl
    cases ht
  · rintro parts us rfl
    exact h.phrase_ne rfl

/-- A chain with a clause behind it is read as a selector that extends something. -/
theorem selectorsOf_extended {source : List Char} {t : Tree} {parts ts : List Tree}
    (ht : t.Chained) :
    selectorsOf source (t :: .node .extendClause parts :: ts) = (do
      let own ← elements source .none t
      let targets ← extendTargets source (.node .extendClause parts)
      return .mk own targets :: (← selectorsOf source ts)) := by
  rw [selectorsOf]
  rintro x rfl
  cases ht

/-- All selectors in front of a rule set stand among the tokens of the list. -/
theorem selectorsOf_stand (source : List Char) {ts : List Tree} (h : Tree.Listed ts) :
    Ensures (selectorsOf source ts) fun ss => ∀ s ∈ ss, s.Stands source (Tree.leavesOf ts) [] := by
  have hbehind {t : Tree} {ts : List Tree} {s : Selector}
      (h : s.Stands source (Tree.leavesOf ts) []) :
      s.Stands source (Tree.leavesOf (t :: ts)) [] := ⟨h.located.behind t.leaves, h.linked⟩
  have hfirst {t : Tree} (ts : List Tree) {es : List Element} (targets : List (Selector × Bool))
      (h : Located source t.leaves es [] ∧ Linked es) :
      (Selector.mk es targets).Stands source (Tree.leavesOf (t :: ts)) [] :=
    ⟨(h.1.around [] (Tree.leavesOf ts)).narrow List.nil_suffix, h.2⟩
  induction h with
  | nil => exact .ok (List.forall_mem_nil _)
  | @token x ts h ih =>
    rw [selectorsOf]
    exact fun ss hss s hs => hbehind (ih ss hss s hs)
  | @plain t ts ht h ih =>
    rw [selectorsOf_cons ht h]
    refine .bind (P := fun s => ∀ ts, s.Stands source (Tree.leavesOf (t :: ts)) []) ?_ fun s hs =>
      .bind ih fun ss hss =>
        .ok (List.forall_mem_cons.mpr ⟨hs ts, fun s' hs' => hbehind (hss s' hs')⟩)
    exact .bind (elements_stands source ht) fun es hes => .ok fun ts => hfirst ts [] hes
  | @extended t parts ts _ ht h ih =>
    rw [selectorsOf_extended ht]
    refine .bind (elements_stands source ht) fun es hes => .seq fun targets =>
      .bind ih fun ss hss => .ok ?_
    exact List.forall_mem_cons.mpr ⟨hfirst _ _ hes, fun s hs => hbehind (hbehind (hss s hs))⟩

/-- The selectors of a list stand before the parts that follow it. -/
theorem selectors_stand (source : List Char) {list : Tree} (h : Tree.Listed list.children)
    (parts : List Tree) :
    Ensures (selectors source list) fun ss =>
      ∀ s ∈ ss, s.Stands source (list.leaves ++ Tree.leavesOf parts) (Tree.leavesOf parts) := by
  obtain ⟨pre, hleaves⟩ : ∃ pre, list.leaves = pre ++ Tree.leavesOf list.children := by
    cases list with
    | leaf x => exact ⟨[x], rfl⟩
    | node p ts => exact ⟨[], rfl⟩
  intro ss hss s hs
  rw [hleaves]
  exact (selectorsOf_stand source h ss hss s hs).around pre _

end Reading

/-! ## Nested rules -/

/-- The selectors of a rule set stand among some tokens, before those of its block; and so it is in
all blocks. -/
inductive Node.Traced (source : List Char) : List Token → Node → Prop
  | ruleset {tokens rest : List Token} {selectors : List Selector} {rules : List Node} {root : Bool}
    (hrest : rest <:+ tokens) (hselectors : ∀ s ∈ selectors, s.Stands source tokens rest)
    (hrules : ∀ n ∈ rules, Traced source rest n) :
      Traced source tokens (.ruleset selectors rules root)
  | other {tokens : List Token} {n : Node} (hsort : n.sort ≠ .ruleset)
    (hblock : ∀ m ∈ n.block, Traced source tokens m) : Traced source tokens n

namespace Node.Traced

variable {source : List Char} {tokens : List Token} {n : Node}

/-- A rule that is traced among some tokens is traced with others around them. -/
theorem around (pre post : List Token) (h : n.Traced source tokens) :
    n.Traced source (pre ++ tokens ++ post) := by
  induction h generalizing pre with
  | @ruleset tokens rest selectors rules root hrest hselectors hrules ih =>
    have hblock : ∀ n ∈ rules, n.Traced source (rest ++ post) := fun n hn => ih n hn []
    refine .ruleset ?_ (fun s hs => ?_) hblock
    · obtain ⟨before, rfl⟩ := hrest
      exact ⟨pre ++ before, by simp⟩
    · exact (hselectors s hs).around pre post
  | other hsort hblock ih => exact .other hsort fun m hm => ih m hm pre

theorem behind (pre : List Token) (h : n.Traced source tokens) :
    n.Traced source (pre ++ tokens) := by
  simpa using h.around pre []

end Node.Traced

namespace Reading

open Node

/-- A rule without block that is no rule set. -/
def IsFlat (n : Node) : Prop := n.sort ≠ .ruleset ∧ n.block = []

/-- A rule without block is traced among any tokens. -/
theorem IsFlat.traced {source : List Char} {tokens : List Token} {n : Node} (h : IsFlat n) :
    n.Traced source tokens := by
  refine .other h.1 ?_
  rw [h.2]
  exact List.forall_mem_nil _

theorem assignment_isFlat (t : Tree) : Ensures (assignment t) IsFlat := by
  unfold assignment
  split
  · exact missing_ensures _ _
  · exact .seq fun content => .ok ⟨fun h => NodeSort.noConfusion h, rfl⟩

theorem declaration_isFlat (source : List Char) (t : Tree) :
    Ensures (declaration source t) IsFlat := by
  unfold declaration
  split
  · exact missing_ensures _ _
  · exact .seq fun content => .ok ⟨fun h => NodeSort.noConfusion h, rfl⟩

theorem importRule_isFlat (t : Tree) : Ensures (importRule t) IsFlat := by
  unfold importRule
  refine .seq fun features => ?_
  split
  · exact .ok ⟨fun h => NodeSort.noConfusion h, rfl⟩
  · exact missing_ensures _ _

/-- What is read of selectors without block is traced. -/
theorem withoutBlock_traced (source : List Char) {t : Tree} {selectors : List Selector}
    {tokens rest : List Token} (hrest : rest <:+ tokens)
    (h : ∀ s ∈ selectors, s.Stands source tokens rest) :
    Ensures (withoutBlock t selectors) fun n => n.Traced source tokens := by
  unfold withoutBlock
  split
  · exact .seq fun name => .seq fun args =>
      .ok (IsFlat.traced ⟨fun h => NodeSort.noConfusion h, rfl⟩)
  · split
    · exact .ok (.ruleset hrest h (List.forall_mem_nil _))
    · exact .seq fun name => .ok (IsFlat.traced ⟨fun h => NodeSort.noConfusion h, rfl⟩)

mutual
/-- What is read off a statement is traced among its tokens, by induction on the tree. -/
theorem statement_traced (source : List Char) (t : Tree) (ht : t.Headed) :
    Ensures (statement source t) fun n => ∀ m ∈ n, m.Traced source t.leaves := by
  have hsome {n : Node} {tokens : List Token} (h : n.Traced source tokens) : ∀ m ∈ some n,
      m.Traced source tokens := by
    rintro m hm
    cases hm
    exact h
  unfold statement
  split
  · exact Ensures.map (assignment_isFlat _) fun _ h => hsome h.traced
  · exact Ensures.map (declaration_isFlat source _) fun _ h => hsome h.traced
  · next list parts =>
    cases ht with
    | setting h => simp [Tree.phrase?] at h
    | rulesetOrMixin hlist hparts =>
      refine .bind (selectors_stand source hlist parts) fun selectors hstand => ?_
      have hrest : Tree.leavesOf parts <:+ list.leaves ++ Tree.leavesOf parts :=
        List.suffix_append _ _
      have hblock := blockIn_traced source parts hparts
      split
      · exact .bind (withoutBlock_traced source hrest hstand) fun n hn => .ok (hsome hn)
      · split
        · refine .seq fun mixin => .bind hblock fun block hblock => ?_
          refine .bind (ReadsValues.required_ensures _ hblock) fun rules hrules =>
            .ok (hsome (.other (fun h => NodeSort.noConfusion h) ?_))
          exact fun n hn => (hrules n hn).behind list.leaves
        · refine .bind hblock fun block hblock => ?_
          refine .bind (ReadsValues.required_ensures _ hblock) fun rules hrules => .ok (hsome ?_)
          exact .ruleset hrest hstand hrules
  · exact Ensures.map (importRule_isFlat _) fun _ h => hsome h.traced
  · exact .ok nofun
  · next parts =>
    cases ht with
    | setting h => simp [Tree.phrase?] at h
    | loading h => simp [Tree.phrase?] at h
    | atRule hparts =>
      refine .seq fun features => .bind (blockIn_traced source parts hparts) fun block hblock => ?_
      refine .bind (ReadsValues.required_ensures _ hblock) fun rules hrules =>
        .ok (hsome (.other (fun h => NodeSort.noConfusion h) ?_))
      simpa [Node.block] using hrules
  · next parts =>
    cases ht with
    | setting h => simp [Tree.phrase?] at h
    | loading h => simp [Tree.phrase?] at h
    | atRule hparts =>
      refine .seq fun content => .bind (blockIn_traced source parts hparts) fun block hblock => ?_
      split
      · refine .ok (hsome (.other (fun h => NodeSort.noConfusion h) fun n hn => ?_))
        cases block with
        | none => cases hn
        | some rules => simpa using hblock rules rfl n hn
      · exact missing_ensures _ _
  · exact .error
termination_by sizeOf t
theorem statements_traced (source : List Char) (ts : List Tree) (hts : ∀ t ∈ ts, t.Headed) :
    Ensures (statements source ts) fun ns => ∀ n ∈ ns, n.Traced source (Tree.leavesOf ts) := by
  unfold statements
  split
  · exact .ok nofun
  · next t ts =>
    obtain ⟨ht, hts⟩ := List.forall_mem_cons.mp hts
    refine .bind (statement_traced source t ht) fun head hhead => ?_
    refine .bind (statements_traced source ts hts) fun rest hrest =>
      .ok (List.forall_mem_append.mpr ⟨?_, ?_⟩)
    · exact fun n hn => (hhead n (Option.mem_toList.mp hn)).around [] (Tree.leavesOf ts)
    · exact fun n hn => (hrest n hn).behind t.leaves
termination_by sizeOf ts
theorem blockIn_traced (source : List Char) (ts : List Tree) (hts : ∀ u ∈ ts, u.HeadedInside) :
    Ensures (blockIn source ts) fun block => ∀ ns ∈ block, ∀ n ∈ ns,
      n.Traced source (Tree.leavesOf ts) := by
  unfold blockIn
  split
  · exact .ok nofun
  · next left p inner right ts =>
    refine Ensures.map (statements_traced source inner (hts _ List.mem_cons_self))
      fun rules hrules => ?_
    rintro ns hns n hn
    cases hns
    simpa using (hrules n hn).around left.leaves (right.leaves ++ Tree.leavesOf ts)
  · next t ts _ =>
    have hrest := blockIn_traced source ts fun u hu => hts u (List.mem_cons_of_mem _ hu)
    exact fun block hblock ns hns n hn => (hrest block hblock ns hns n hn).behind t.leaves
termination_by sizeOf ts
end

end Reading

/-- What was read of a text is traced among its tokens. -/
theorem Ruleset.traced_ofText {source : String} {sheet : Ruleset}
    (h : Ruleset.ofText source = .ok sheet) :
    ∀ n ∈ sheet.rules, n.Traced source.toList (Lexing.ofText source).tokens := by
  obtain ⟨-, hclean, hrules⟩ := exists_of_ofText h
  have hread := Reading.statements_traced source.toList _ (Parse.headed_ofText hclean) _ hrules
  rw [← Parse.leaves_eq_tokens hclean]
  exact hread

/-! ## Chains of rule sets -/

/-- The selectors of some rule sets among rules, each rule set in the block of the one before, at
any depth. -/
inductive Nested : List Node → List (List Selector) → Prop
  | done (rules : List Node) : Nested rules []
  | ruleset {rules inner : List Node} {selectors : List Selector} {root : Bool}
    {chain : List (List Selector)}
    (h : .ruleset selectors inner root ∈ rules) (hrest : Nested inner chain) :
      Nested rules (selectors :: chain)
  | deeper {rules : List Node} {n : Node} {chain : List (List Selector)} (h : n ∈ rules)
    (hrest : Nested n.block chain) : Nested rules chain

/-- **Selectors that are joined along nested rule sets come in the order of the source.** -/
theorem Nested.stands {source : List Char} {rules : List Node} {chain : List (List Selector)}
    (h : Nested rules chain) (hown : ∀ selectors ∈ chain, ∀ s ∈ selectors, s.hasParent = false)
    {whole : List Token} : ∀ tokens outer,
      tokens <:+ whole → (∀ n ∈ rules, n.Traced source tokens) →
      (∀ s ∈ outer, s.Stands source whole tokens) →
      ∀ s ∈ chain.foldl Selector.joinAll outer, ∃ rest, s.Stands source whole rest := by
  induction h with
  | done rules => exact fun tokens outer _ _ houter s hs => ⟨tokens, houter s hs⟩
  | @ruleset rules inner selectors root chain h _ ih =>
    intro tokens outer hsuffix hrules houter
    obtain ⟨hselectors, hothers⟩ := List.forall_mem_cons.mp hown
    cases hrules _ h with
    | other hsort _ => exact absurd rfl hsort
    | @ruleset _ rest _ _ _ hrest hstand hinner =>
      refine ih hothers rest _ (hrest.trans hsuffix) hinner fun s hs => ?_
      unfold Selector.joinAll at hs
      split at hs
      · obtain ⟨pre, rfl⟩ := hsuffix
        exact (hstand s hs).behind pre
      · obtain ⟨parent, hparent, hs⟩ := List.mem_flatMap.mp hs
        obtain ⟨own, hown, rfl⟩ := List.mem_map.mp hs
        exact (houter parent hparent).join (hstand own hown) (hselectors own hown)
  | @deeper rules n chain h _ ih =>
    intro tokens outer hsuffix hrules houter
    cases hrules n h with
    | other hsort hblock => exact ih hown tokens outer hsuffix hblock houter
    | @ruleset _ rest _ _ _ hrest hstand hinner =>
      exact ih hown rest outer (hrest.trans hsuffix) hinner fun s hs => (houter s hs).narrow hrest

end LessCss
