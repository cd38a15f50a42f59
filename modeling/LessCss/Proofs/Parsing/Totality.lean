import LessCss.Proofs.Parsing.Readable

/-!
# A text without complaints can be read

Of a text against which neither the lexer nor the parser noted anything, only a mixin that is
defined or called under several selectors at once is refused (`Tree.isCrowded`), and then the
complaint is about the first one.  `Heeds ts x` says this of a result `x`, the trees `ts` being
those that have been looked at, in the order of the text.  It passes from the statements to the rows
and blocks around them.
-/

namespace LessCss

namespace Tree

mutual
/-- A tree and everything in it, each phrase before its parts. -/
def subtrees : Tree → List Tree
  | leaf x => [leaf x]
  | node p ts => node p ts :: subtreesOf ts
/-- The same for the trees of a row. -/
def subtreesOf : List Tree → List Tree
  | [] => []
  | t :: ts => subtrees t ++ subtreesOf ts
end

/-- Whether a tree is a mixin that is defined or called under several selectors at once. -/
def isCrowded (t : Tree) : Bool :=
  t.phrase? == some .rulesetOrMixin && (t.node? .arguments).isSome &&
    (t.nodesOf .selectorList).any fun list => 2 ≤ (list.nodesOf .selector).length

theorem isCrowded_leaf (x : Token) : (leaf x).isCrowded = false := rfl

theorem isCrowded_node {p : Phrase} (hp : p ≠ .rulesetOrMixin) (ts : List Tree) :
    (node p ts).isCrowded = false := by
  simp [isCrowded, phrase?, hp]

mutual
/-- Where no mixin stands nothing is crowded. -/
theorem Plain.find?_isCrowded {t : Tree} (h : t.Plain) : t.subtrees.find? isCrowded = none := by
  cases t with
  | leaf x => rfl
  | node p ts => rw [subtrees, List.find?_cons, isCrowded_node h.1, PlainAll.find?_isCrowded h.2]
theorem PlainAll.find?_isCrowded {ts : List Tree} (h : PlainAll ts) :
    (subtreesOf ts).find? isCrowded = none := by
  cases ts with
  | nil => rfl
  | cons t ts =>
    rw [subtreesOf, List.find?_append, h.1.find?_isCrowded, h.2.find?_isCrowded]
    rfl
end

theorem subtreesOf_append (ts us : List Tree) :
    subtreesOf (ts ++ us) = subtreesOf ts ++ subtreesOf us := by
  induction ts with
  | nil => rfl
  | cons t ts ih => rw [List.cons_append, subtreesOf, subtreesOf, ih, List.append_assoc]

/-- In a phrase whose parts are plain up to the last, only the phrase and its last part count. -/
theorem find?_subtrees_last {p : Phrase} (ts : List Tree) {t : Tree} (hts : ∀ t ∈ ts, t.Plain) :
    (node p (ts ++ [t])).subtrees.find? isCrowded =
      ([node p (ts ++ [t])] ++ t.subtrees).find? isCrowded := by
  have hplain := (plainAll_iff.mpr hts).find?_isCrowded
  have hlast : subtreesOf [t] = t.subtrees := by rw [subtreesOf, subtreesOf, List.append_nil]
  rw [subtrees, List.singleton_append, List.find?_cons, List.find?_cons, subtreesOf_append,
    List.find?_append, hplain, Option.none_or, hlast]

/-- In a phrase whose parts are plain, only the phrase itself counts. -/
theorem find?_subtrees_node {p : Phrase} {ts : List Tree} (hts : ∀ t ∈ ts, t.Plain) :
    (node p ts).subtrees.find? isCrowded = [node p ts].find? isCrowded := by
  rw [subtrees, List.find?_cons, List.find?_cons, (plainAll_iff.mpr hts).find?_isCrowded,
    List.find?_nil]

end Tree

open LessCss.Tree

/-- A result is a value, unless some tree is crowded; then it is the complaint about the first
one. -/
def Heeds {α : Type} (ts : List Tree) (x : Except Error α) : Prop :=
  match ts.find? isCrowded with
  | none => Succeeds x
  | some t => x = .error (.severalSelectors t.start)

namespace Heeds

variable {α β : Type} {ts us : List Tree} {x : Except Error α}

/-- Whether a result heeds trees depends on the first crowded one alone. -/
theorem congr (h : ts.find? isCrowded = us.find? isCrowded) (hus : Heeds us x) : Heeds ts x := by
  unfold Heeds at *
  rw [h]
  exact hus

/-- A result that is a value heeds trees none of which is crowded. -/
theorem of_succeeds (hx : Succeeds x) (hts : ts.find? isCrowded = none) : Heeds ts x := by
  unfold Heeds
  rw [hts]
  exact hx

/-- One step behind another heeds what both of them heed, the first one first. -/
theorem bind {f : α → Except Error β} (hx : Heeds ts x) (hf : ∀ a, Heeds us (f a)) :
    Heeds (ts ++ us) (x >>= f) := by
  unfold Heeds at *
  rw [List.find?_append]
  cases hfind : ts.find? isCrowded with
  | none =>
    rw [hfind] at hx
    obtain ⟨a, rfl⟩ := hx
    exact hf a
  | some t =>
    rw [hfind] at hx
    rw [hx]
    rfl

/-- A step behind which nothing is refused any more. -/
theorem before {f : α → Except Error β} (hx : Heeds ts x) (hf : ∀ a, Succeeds (f a)) :
    Heeds ts (x >>= f) := by
  have hbind : Heeds (ts ++ []) (x >>= f) := hx.bind fun a => of_succeeds (hf a) rfl
  rwa [List.append_nil] at hbind

theorem map {f : α → β} (hx : Heeds ts x) : Heeds ts (f <$> x) := by
  have hbefore := hx.before fun a => .ok (f a)
  cases x with
  | ok a => exact hbefore
  | error e => exact hbefore

/-- A step before anything is looked at. -/
theorem after {f : α → Except Error β} (hx : Succeeds x) (hf : ∀ a, x = .ok a → Heeds ts (f a)) :
    Heeds ts (x >>= f) := by
  obtain ⟨a, ha⟩ := hx
  rw [ha]
  exact hf a ha

end Heeds

namespace Reading

/-- A statement that can be read, unless something in it is crowded. -/
def IsStatement (t : Tree) : Prop := ∀ source, Heeds t.subtrees (statement source t)

/-- A statement without mixins can be read if its reading succeeds. -/
theorem isStatement_of_plain {t : Tree} (ht : t.Plain)
    (h : ∀ source, Succeeds (statement source t)) :
    IsStatement t := fun source => .of_succeeds (h source) ht.find?_isCrowded

/-- A block of such statements. -/
def IsBlock (t : Tree) : Prop :=
  ∃ left right ts, t = .node .block [.leaf left, .node .statements ts, .leaf right] ∧
    ∀ t ∈ ts, IsStatement t

theorem IsBlock.phrase_eq {t : Tree} (h : IsBlock t) : t.phrase? = some .block := by
  obtain ⟨left, right, ts, rfl, -⟩ := h
  rfl

/-- Statements that can be read can be read in a row, unless something in them is crowded. -/
theorem statements_heeds (source : List Char) {ts : List Tree} (h : ∀ t ∈ ts, IsStatement t) :
    Heeds (subtreesOf ts) (statements source ts) := by
  induction ts with
  | nil => exact .of_succeeds ⟨[], by rw [statements]⟩ rfl
  | cons t ts ih =>
    obtain ⟨ht, hts⟩ := List.forall_mem_cons.mp h
    rw [statements, subtreesOf]
    refine (ht source).bind fun head => (ih hts).map

theorem blockIn_cons {t : Tree} (ht : t.phrase? ≠ some .block) (source : List Char)
    (ts : List Tree) :
    blockIn source (t :: ts) = blockIn source ts := by
  rw [blockIn]
  rintro head p inner right rfl
  exact ht rfl

theorem blockIn_eq_none (source : List Char) {ts : List Tree}
    (hts : ∀ t ∈ ts, t.phrase? ≠ some .block) :
    blockIn source ts = .ok none := by
  induction ts with
  | nil => rw [blockIn]
  | cons t ts ih =>
    obtain ⟨ht, hothers⟩ := List.forall_mem_cons.mp hts
    rw [blockIn_cons ht, ih hothers]

/-- The block at the end of a phrase is found and read. -/
theorem blockIn_heeds (source : List Char) (ts : List Tree) {block : Tree}
    (hts : ∀ t ∈ ts, t.phrase? ≠ some .block) (hblock : IsBlock block) {α : Type}
    {f : Option (List Node) → Except Error α} (hf : ∀ rules, Succeeds (f (some rules))) :
    Heeds block.subtrees (blockIn source (ts ++ [block]) >>= f) := by
  induction ts with
  | nil =>
    obtain ⟨left, right, inner, rfl, hinner⟩ := hblock
    have hread : blockIn source [.node .block [.leaf left, .node .statements inner, .leaf right]] =
        some <$> statements source inner := by rw [blockIn]
    rw [List.nil_append, hread, bind_map_left]
    have hheeds := (statements_heeds source hinner).before hf
    refine hheeds.congr ?_
    simp [subtrees, subtreesOf, isCrowded_node, isCrowded_leaf]
  | cons t ts ih =>
    obtain ⟨ht, hothers⟩ := List.forall_mem_cons.mp hts
    rw [List.cons_append, blockIn_cons ht]
    exact ih hothers

/-! ## Rule sets and mixins -/

section RulesetOrMixin

variable {list : Tree} {parts : List Tree} {source : List Char} {ss : List Selector}

variable (hlist : IsSelectorList list) (hparts : ∀ t ∈ parts, t.phrase? ≠ some .selectorList)
  (hss : ReadsSelectors source list.children ss)

include hlist hparts in
/-- Only the one selector list in front counts. -/
theorem isCrowded_ruleset :
    (Tree.node .rulesetOrMixin (list :: parts)).isCrowded =
      (((Tree.node .rulesetOrMixin (list :: parts)).node? .arguments).isSome &&
        decide (2 ≤ (list.nodesOf .selector).length)) := by
  have hnone : parts.filter (·.phrase? == some .selectorList) = [] :=
    nodesOf_eq_nil (q := .rulesetOrMixin) hparts
  have hlists : (Tree.node .rulesetOrMixin (list :: parts)).nodesOf .selectorList = [list] := by
    simp [nodesOf, children, hlist.phrase_eq, hnone]
  simp [isCrowded, hlists]

include hlist hparts hss in
/-- With arguments, a name is refused just if the mixin is crowded. -/
theorem mixinName_heeds
    (hargs : ((Tree.node .rulesetOrMixin (list :: parts)).node? .arguments).isSome) :
    Heeds [Tree.node .rulesetOrMixin (list :: parts)]
      (mixinName (.node .rulesetOrMixin (list :: parts)) ss) := by
  have hcrowded := isCrowded_ruleset hlist hparts
  have hcount : ss.length = (list.nodesOf .selector).length := hss.length_eq
  have hpos : 0 < (list.nodesOf .selector).length := List.length_pos_iff.mpr hlist.nonempty
  rw [hargs, Bool.true_and, ← hcount] at hcrowded
  unfold Heeds
  rw [List.find?_cons, hcrowded]
  match ss, hcount with
  | [], hcount =>
    rw [List.length_nil] at hcount
    omega
  | [s], _ => exact .ok s.key
  | _ :: _ :: _, _ => simp [mixinName]

include hss in
theorem statement_ruleset :
    statement source (.node .rulesetOrMixin (list :: parts)) =
      (let t := Tree.node .rulesetOrMixin (list :: parts)
      if (t.node? .block).isNone then some <$> withoutBlock t ss
      else
        match t.node? .arguments with
        | some args => do
          let mixin ← definition source t args ss
          let rules ← required t (← blockIn source parts)
          return some { mixin with rules }.toNode
        | none => do
          let rules ← required t (← blockIn source parts)
          return some (.ruleset ss rules false)) := by
  rw [statement, selectors, hss.result]
  rfl

include hlist hparts hss in
/-- A mixin that is called or extended can be read, unless it is crowded. -/
theorem withoutBlock_heeds
    (hargs : ∀ args, (Tree.node .rulesetOrMixin (list :: parts)).node? .arguments = some args →
      IsArguments args)
    (hname : (Tree.node .rulesetOrMixin (list :: parts)).node? .arguments = none →
      Parser.isCallable list = true ∨ Parser.hasExtend list = true) :
    Heeds [Tree.node .rulesetOrMixin (list :: parts)]
      (withoutBlock (.node .rulesetOrMixin (list :: parts)) ss) := by
  unfold withoutBlock
  split
  · rename_i args hfind
    have hname := mixinName_heeds hlist hparts hss (by rw [hfind]; rfl)
    exact hname.before fun name => (hargs args hfind).call.bind fun _ => .ok _
  · rename_i hfind
    have hcrowded := isCrowded_ruleset hlist hparts
    rw [hfind, Option.isSome_none, Bool.false_and] at hcrowded
    refine .of_succeeds ?_ (by rw [List.find?_cons, hcrowded, List.find?_nil])
    split
    · exact .ok _
    · rename_i hextends
      -- nothing is extended, so that the selectors are the name of a mixin
      have hone : ss.length = 1 := by
        rcases hname hfind with hcallable | hclause
        · exact hss.length_eq.trans (hlist.single_of_callable hcallable)
        · refine absurd (hss.extends_of_clause ?_) hextends
          obtain ⟨clause, hclause⟩ := Option.isSome_iff_exists.mp hclause
          obtain ⟨hmem, hphrase⟩ := mem_nodesOf.mp (List.mem_of_head? hclause)
          exact List.any_eq_true.mpr ⟨clause, hmem, by simp [hphrase]⟩
      obtain ⟨s, rfl⟩ := List.length_eq_one_iff.mp hone
      exact .ok _

variable (hplain : list.Plain)

include hlist hplain in
/-- Selectors without block behind them. -/
theorem isStatement_call (hparts : ∀ t ∈ parts, t.Plain ∧ t.phrase? ≠ some .selectorList ∧
      t.phrase? ≠ some .block)
    (hargs : ∀ args, (Tree.node .rulesetOrMixin (list :: parts)).node? .arguments = some args →
      IsArguments args)
    (hname : (Tree.node .rulesetOrMixin (list :: parts)).node? .arguments = none →
      Parser.isCallable list = true ∨ Parser.hasExtend list = true) :
    IsStatement (.node .rulesetOrMixin (list :: parts)) := by
  intro source
  obtain ⟨ss, hss⟩ := hlist.read source
  have hnoBlock : (Tree.node .rulesetOrMixin (list :: parts)).node? .block = none := by
    refine node?_eq_none (List.forall_mem_cons.mpr ⟨?_, fun t ht => (hparts t ht).2.2⟩)
    simp [hlist.phrase_eq]
  rw [statement_ruleset hss]
  simp only [hnoBlock, Option.isNone_none, if_true]
  have hheeds := withoutBlock_heeds hlist (fun t ht => (hparts t ht).2.1) hss hargs hname
  refine hheeds.map.congr (find?_subtrees_node ?_)
  exact List.forall_mem_cons.mpr ⟨hplain, fun t ht => (hparts t ht).1⟩

include hlist hplain in
/-- Selectors, perhaps arguments and a guard, and a block. -/
theorem isStatement_block (before : List Tree) {block : Tree}
    (hbefore : ∀ t ∈ before, t.Plain ∧ t.phrase? ≠ some .selectorList ∧ t.phrase? ≠ some .block)
    (hargs : ∀ args, (Tree.node .rulesetOrMixin (list :: (before ++ [block]))).node? .arguments =
      some args → IsArguments args)
    (hblock : IsBlock block) :
    IsStatement (.node .rulesetOrMixin (list :: (before ++ [block]))) := by
  intro source
  obtain ⟨ss, hss⟩ := hlist.read source
  have hfind : (Tree.node .rulesetOrMixin (list :: (before ++ [block]))).node? .block =
      some block := by
    refine node?_append (list :: before) [] (List.forall_mem_cons.mpr ⟨?_, ?_⟩) hblock.phrase_eq
    · simp [hlist.phrase_eq]
    · exact fun t ht => (hbefore t ht).2.2
  have hlists : ∀ t ∈ before ++ [block], t.phrase? ≠ some .selectorList := by
    refine List.forall_mem_append.mpr ⟨fun t ht => (hbefore t ht).2.1, ?_⟩
    exact List.forall_mem_singleton.mpr (by simp [hblock.phrase_eq])
  have htrees : (Tree.node .rulesetOrMixin (list :: (before ++ [block]))).subtrees.find? isCrowded =
      ([Tree.node .rulesetOrMixin (list :: (before ++ [block]))] ++ block.subtrees).find?
        isCrowded :=
    find?_subtrees_last (list :: before)
      (List.forall_mem_cons.mpr ⟨hplain, fun t ht => (hbefore t ht).1⟩)
  rw [statement_ruleset hss]
  simp only [hfind, Option.isNone_some, Bool.false_eq_true, if_false]
  refine Heeds.congr htrees ?_
  split
  · rename_i args hfindArgs
    have hname := mixinName_heeds hlist hlists hss (by rw [hfindArgs]; rfl)
    have hdefinition : Heeds [Tree.node .rulesetOrMixin (list :: (before ++ [block]))]
        (definition source (.node .rulesetOrMixin (list :: (before ++ [block]))) args ss) :=
      hname.before fun name => (hargs args hfindArgs).definition.bind fun _ => .ok _
    refine hdefinition.bind fun mixin =>
      blockIn_heeds source before (fun t ht => (hbefore t ht).2.2) hblock ?_
    exact fun rules => .ok _
  · rename_i hfindArgs
    have hcrowded := isCrowded_ruleset hlist hlists
    rw [hfindArgs, Option.isSome_none, Bool.false_and] at hcrowded
    have hrules := blockIn_heeds source before (fun t ht => (hbefore t ht).2.2) hblock
      (f := fun found => do
        let rules ← required (.node .rulesetOrMixin (list :: (before ++ [block]))) found
        return some (Node.ruleset ss rules false)) fun rules => .ok _
    refine hrules.congr ?_
    rw [List.singleton_append, List.find?_cons, hcrowded]

end RulesetOrMixin

/-! ## Other statements -/

theorem valueIn_succeeds {t v : Tree} (hfind : t.node? .value = some v) (hv : IsValue v) :
    Succeeds (valueIn t) := by
  rw [valueIn, hfind]
  exact hv.succeeds.bind fun _ => .ok _

/-- The first part of a phrase, if it is a token of some kind. -/
theorem tokenOf?_head {p : Phrase} {x : Token} {k : Kind} (hx : x.kind = k) (ts : List Tree) :
    (Tree.node p (.leaf x :: ts)).tokenOf? k = some x := by
  simp [tokenOf?, tokens, children, token?, hx]

/-- The header of an at-rule can be read if its values can. -/
theorem header_succeeds (source : List Char) {t : Tree} (h : ∀ u ∈ t.nodesOf .value, IsValue u) :
    Succeeds (header source t) := by
  unfold header
  split
  · rename_i v hfind
    refine ((h v ?_).succeeds.bind fun _ => .ok _).bind fun _ => .ok _
    exact List.mem_of_head? hfind
  · exact .ok _

theorem mediaFeatures_succeeds {t : Tree} (hfind : t.node? .mediaList = some u)
    (hu : IsMediaList u) :
    Succeeds (mediaFeatures t) := by
  rw [mediaFeatures, hfind]
  exact hu.succeeds

/-- An import can be read if its path and its media queries can. -/
theorem importRule_succeeds {t : Tree} (hmedia : ∀ u ∈ t.nodesOf .mediaList, IsMediaList u)
    (hpath : ∃ x ∈ t.tokens, (importPath? x).isSome) : Succeeds (importRule t) := by
  unfold importRule
  have hfeatures : Succeeds ((t.node? .mediaList).mapM mediaList) := by
    cases hfind : t.node? .mediaList with
    | none => exact .ok none
    | some u =>
      obtain ⟨features, hfeatures⟩ := (hmedia u (List.mem_of_head? hfind)).succeeds
      exact ⟨some features, by simp [hfeatures]⟩
  refine hfeatures.bind fun features => ?_
  split
  · exact .ok _
  · rename_i hnone
    obtain ⟨x, hx, hsome⟩ := hpath
    rw [List.findSome?_eq_none_iff.mp hnone x hx] at hsome
    cases hsome

/-- An at-rule that can be read, unless something in it is crowded. -/
def IsAtRule (t : Tree) : Prop := IsStatement (.node .atRule [t])

theorem isAtRule_of_plain {t : Tree} (ht : t.Plain)
    (h : ∀ source, Succeeds (statement source (.node .atRule [t]))) : IsAtRule t :=
  isStatement_of_plain ⟨nofun, ht, trivial⟩ h

theorem find?_subtrees_atRule (p : Phrase) (hp : p ≠ .rulesetOrMixin) (ts : List Tree) {t : Tree}
    (hts : ∀ t ∈ ts, t.Plain) :
    (Tree.node .atRule [.node p (ts ++ [t])]).subtrees.find? isCrowded =
      t.subtrees.find? isCrowded := by
  have houter := find?_subtrees_last (p := .atRule) [] (t := .node p (ts ++ [t])) nofun
  rw [List.nil_append, List.singleton_append, List.find?_cons, isCrowded_node (by decide)] at houter
  rw [houter, find?_subtrees_last ts hts, List.singleton_append, List.find?_cons, isCrowded_node hp]

/-- A media rule can be read if its queries and its block can. -/
theorem isAtRule_media {head queries block : Tree} (hhead : ∃ x, head = .leaf x)
    (hqueries : IsMediaList queries) (hplain : queries.Plain) (hblock : IsBlock block) :
    IsAtRule (.node .mediaRule [head, queries, block]) := by
  intro source
  obtain ⟨x, rfl⟩ := hhead
  have hfind : (Tree.node .mediaRule [.leaf x, queries, block]).node? .mediaList = some queries :=
    node?_append [.leaf x] _ (by simp) hqueries.phrase_eq
  rw [statement]
  refine Heeds.after (mediaFeatures_succeeds hfind hqueries) fun features _ => ?_
  have hrules := blockIn_heeds source [.leaf x, queries]
    (by simp [hqueries.phrase_eq]) hblock
    (f := fun found => do
      let rules ← required (.node .mediaRule [.leaf x, queries, block]) found
      return some (Node.media features rules)) fun rules => .ok _
  refine hrules.congr (find?_subtrees_atRule .mediaRule (by decide) [.leaf x, queries] ?_)
  simpa using ⟨trivial, hplain⟩

/-- An at-rule that ends with a semicolon or with a block. -/
theorem isAtRule_general {x : Token} {content : List Tree} {last : Tree} (hx : x.kind = .atName)
    (hcontent : ∀ t ∈ content, TokenOr IsValue t ∧ t.Plain)
    (hlast : (∃ y, last = .leaf y) ∨ IsBlock last) :
    IsAtRule (.node .generalAtRule (.leaf x :: content ++ [last])) := by
  intro source
  have hvalues : ∀ t ∈ (Tree.node .generalAtRule (.leaf x :: content ++ [last])).nodesOf .value,
      IsValue t := by
    intro t ht
    obtain ⟨hmem, hphrase⟩ := mem_nodesOf.mp ht
    simp only [children, List.cons_append, List.mem_cons, List.mem_append, List.not_mem_nil,
      or_false] at hmem
    rcases hmem with rfl | hmem | rfl
    · cases hphrase
    · exact (hcontent t hmem).1.of_phrase hphrase
    · rcases hlast with ⟨y, rfl⟩ | hblock
      · cases hphrase
      · rw [hblock.phrase_eq] at hphrase
        cases hphrase
  have hnoBlock : ∀ t ∈ Tree.leaf x :: content, t.phrase? ≠ some .block := by
    refine List.forall_mem_cons.mpr ⟨(Option.some_ne_none _).symm, fun t ht hphrase => ?_⟩
    have hvalue := ((hcontent t ht).1.of_phrase hphrase).phrase_eq
    rw [hphrase] at hvalue
    cases hvalue
  have hplain : ∀ t ∈ Tree.leaf x :: content, t.Plain :=
    List.forall_mem_cons.mpr ⟨trivial, fun t ht => (hcontent t ht).2⟩
  have hname := tokenOf?_head (p := .generalAtRule) hx (content ++ [last])
  rw [statement]
  refine Heeds.after (header_succeeds source hvalues) fun content' _ => ?_
  refine Heeds.congr (find?_subtrees_atRule .generalAtRule (by decide) _ hplain) ?_
  simp only [List.cons_append, hname]
  rcases hlast with ⟨y, rfl⟩ | hblock
  · have hnone : blockIn source (.leaf x :: content ++ [.leaf y]) = .ok none := by
      refine blockIn_eq_none source (List.forall_mem_append.mpr ⟨hnoBlock, ?_⟩)
      exact List.forall_mem_singleton.mpr (Option.some_ne_none _).symm
    rw [← List.cons_append, hnone]
    exact .of_succeeds (.ok _) rfl
  · exact blockIn_heeds source _ hnoBlock hblock fun rules => .ok _

end Reading

/-! ## What the parser finds -/

namespace Parser

open Reading

variable {bound : Nat}

/-- A plain phrase, and what else was found out about it. -/
theorem Finds.plain {p : Parser Tree} {P : Tree → Prop} (h : p.Finds bound P)
    (htakes : p.Takes Spells) :
    p.Finds bound fun t => P t ∧ t.Plain :=
  (h.and (.of_takes htakes)).mono fun _ ⟨hP, _, hspells⟩ => ⟨hP, hspells.plain⟩

/-- What is found as a phrase is that phrase, and plain if it spells what was taken for it. -/
theorem Finds.phrase {phrase : Phrase} {p : Parser (List Tree)}
    (htakes : (Parser.node phrase p).Takes Spells) :
    (Parser.node phrase p).Finds bound fun t => t.phrase? = some phrase ∧ t.Plain := by
  refine Finds.plain ?_ htakes
  intro c hc
  have hready := Finds.of_takes htakes c hc
  cases h : p c with
  | failed m next =>
    rw [node_of_failed h]
    trivial
  | found ts next =>
    rw [node_of_found h] at hready ⊢
    exact ⟨hready.1, rfl⟩

/-- A plain statement. -/
theorem Finds.statement {p : Parser Tree}
    (h : p.Finds bound fun t => ∀ source, Succeeds (Reading.statement source t))
    (htakes : p.Takes Spells) :
    p.Finds bound IsStatement :=
  (h.plain htakes).mono fun _ ⟨hread, hplain⟩ => isStatement_of_plain hplain hread

/-- A plain at-rule. -/
theorem Finds.atRule {p : Parser Tree}
    (h : p.Finds bound fun t => ∀ source, Succeeds (Reading.statement source (.node .atRule [t])))
    (htakes : p.Takes Spells) : p.Finds bound IsAtRule :=
  (h.plain htakes).mono fun _ ⟨hread, hplain⟩ => isAtRule_of_plain hplain hread

/-- A phrase that may be left out, with the same steps behind it in both cases. -/
theorem Finds.optional_bind {β : Type} {b : Bool} {p : Parser Tree} {f : List Tree → Parser β}
    {P : Tree → Prop} {Q : β → Prop} (hp : p.Finds bound P)
    (hf : ∀ ts, (∀ t ∈ ts, P t) → (f ts).Finds bound Q) :
    (if b then (do let t ← p; let ts ← Pure.pure [t]; f ts)
      else (do let ts ← Pure.pure []; f ts)).Finds
      bound Q := by
  cases b with
  | true => exact hp.bind fun t ht => hf [t] (List.forall_mem_singleton.mpr ht)
  | false => exact hf [] nofun

theorem ending_finds (phrase : Phrase) :
    (ending phrase).Finds bound fun ts => ∀ t ∈ ts, ∃ x, t = .leaf x := by
  refine (Finds.accept _ _).bind fun important himportant => Finds.here_bind fun c => ?_
  have hleaves : ∀ t ∈ important, ∃ x, t = .leaf x := by
    intro t ht
    obtain ⟨x, hx, -⟩ := himportant t ht
    exact ⟨x, hx⟩
  split
  · exact .pure hleaves
  · refine (Finds.expect _ _).bind fun semicolon ⟨x, hx, _⟩ => .pure ?_
    exact List.forall_mem_append.mpr ⟨hleaves, List.forall_mem_singleton.mpr ⟨x, hx⟩⟩

theorem assignment_finds : assignment.Finds bound IsStatement := by
  refine Finds.statement (Finds.node ?_) assignment_takes
  refine (Finds.expect _ _).bind fun head ⟨x, hhead, hx⟩ => ?_
  refine (Finds.expect _ _).bind fun colon ⟨y, hcolon, _⟩ =>
    value_finds.bind fun content hcontent => ?_
  refine (ending_finds _).bind fun rest _ => .pure fun source => ?_
  subst hhead hcolon
  rw [Reading.statement, Reading.assignment, tokenOf?_head hx]
  have hvalue := node?_append (q := .assignment) [.leaf x, .leaf y] rest (by simp)
    hcontent.phrase_eq
  exact ((valueIn_succeeds hvalue hcontent).bind fun _ => .ok _).map _

theorem declaration_finds : declaration.Finds bound IsStatement := by
  refine Finds.statement (Finds.node ?_) declaration_takes
  refine (Finds.phrase name_takes).bind fun property ⟨hproperty, _⟩ => ?_
  refine (Finds.expect _ _).bind fun colon ⟨y, hcolon, _⟩ =>
    value_finds.bind fun content hcontent => ?_
  refine (ending_finds _).bind fun rest _ => .pure fun source => ?_
  have hname := node?_append (q := .declaration) [] (colon :: content :: rest) nofun hproperty
  have hvalue := node?_append (q := .declaration) [property, colon] rest
    (by simp [hproperty, hcolon]) hcontent.phrase_eq
  rw [Reading.statement, Reading.declaration, ← List.nil_append (property :: _), hname]
  exact ((valueIn_succeeds hvalue hcontent).bind fun _ => .ok _).map _

theorem importOptions_finds : importOptions.Finds bound fun ts => ∀ t ∈ ts, ∃ x, t = .leaf x := by
  refine Finds.here_bind fun c => ?_
  split
  · refine (Finds.expect _ _).bind fun left ⟨x, hleft, _⟩ => ?_
    refine (Finds.expect _ _).bind fun option ⟨y, hoption, _⟩ => ?_
    refine (Finds.repeatPair (Finds.expect _ _) (Finds.expect _ _)).bind
      fun more ⟨pairs, hmore, hpairs⟩ => ?_
    refine (Finds.expect _ _).bind fun right ⟨z, hright, _⟩ => .pure ?_
    have hrest : ∀ t ∈ more, ∃ x, t = .leaf x := by
      intro t ht
      rw [hmore] at ht
      rcases TokenOr.of_pairs (Q := fun t => ∃ x, t = .leaf x ∧ x.kind = .ident) hpairs t ht with
        hleaf | ⟨x, hx, -⟩
      · exact hleaf
      · exact ⟨x, hx⟩
    simp only [List.cons_append, List.mem_cons, List.mem_append, List.not_mem_nil, or_false]
    rintro t (rfl | rfl | ht | rfl)
    · exact ⟨x, hleft⟩
    · exact ⟨y, hoption⟩
    · exact hrest t ht
    · exact ⟨z, hright⟩
  · exact .pure nofun

theorem pathToken_finds (phrase : Phrase) :
    (pathToken phrase).Finds bound fun t => ∃ x, t = .leaf x ∧ (importPath? x).isSome := by
  refine (Finds.take _ _).mono fun t ⟨x, ht, _, hkind⟩ => ⟨x, ht, ?_⟩
  rw [KindSet.contains_ofList, List.contains_iff_mem] at hkind
  simp only [List.mem_cons, List.not_mem_nil, or_false] at hkind
  unfold importPath?
  rcases hkind with hkind | hkind | hkind
  all_goals rw [hkind]; rfl

theorem importRule_finds : importRule.Finds bound IsAtRule := by
  refine Finds.atRule (Finds.node ?_) importRule_takes
  refine (Finds.expect _ _).bind fun head ⟨x, hhead, _⟩ => ?_
  refine importOptions_finds.bind fun options hoptions => ?_
  refine (pathToken_finds _).bind fun path ⟨y, hpath, hsome⟩ => Finds.here_bind fun c => ?_
  refine Finds.optional_bind mediaList_finds fun media hmedia => ?_
  refine (Finds.expect _ _).bind fun semicolon ⟨z, hsemicolon, _⟩ => .pure fun source => ?_
  rw [Reading.statement]
  refine (importRule_succeeds ?_ ?_).map _
  · refine TokenOr.of_nodesOf ?_
    simp only [children, List.cons_append, List.append_assoc, List.mem_cons, List.mem_append,
      List.not_mem_nil, or_false]
    rintro t (rfl | ht | rfl | ht | rfl)
    · exact .inl ⟨x, hhead⟩
    · exact .inl (hoptions t ht)
    · exact .inl ⟨y, hpath⟩
    · exact .inr (hmedia t ht)
    · exact .inl ⟨z, hsemicolon⟩
  · refine ⟨y, ?_, hsome⟩
    refine List.mem_filterMap.mpr ⟨.leaf y, ?_, rfl⟩
    simp [children, hpath]

theorem pluginRule_finds : pluginRule.Finds bound IsAtRule := by
  refine (Finds.phrase pluginRule_takes).mono fun t ⟨hphrase, hplain⟩ => ?_
  refine isAtRule_of_plain hplain fun source => ?_
  cases t with
  | leaf x => cases hphrase
  | node p ts =>
    cases hphrase
    rw [Reading.statement]
    exact .ok none

theorem valuePrelude_finds : valuePrelude.Finds bound IsValue := by
  refine value_finds.bind fun content hcontent => Finds.here_bind fun c => ?_
  split
  · exact .pure hcontent
  · exact Finds.fail _ _

theorem atRulePrelude_finds :
    atRulePrelude.Finds bound fun ts => ∀ t ∈ ts, TokenOr IsValue t ∧ t.Plain := by
  have hvalues : atRulePrelude.Finds bound fun ts => ∀ t ∈ ts, TokenOr IsValue t := by
    refine Finds.here_bind fun c => ?_
    split
    · exact .pure nofun
    · refine valuePrelude_finds.attempt.bind fun early hearly => ?_
      cases early with
      | some content => exact .pure (List.forall_mem_singleton.mpr (.inr (hearly content rfl)))
      | none =>
        refine (Finds.repeatSingle (Finds.take _ _)).mono fun ts hts t ht => ?_
        obtain ⟨x, hx, -⟩ := hts t ht
        exact .inl ⟨x, hx⟩
  refine (hvalues.and (.of_takes atRulePrelude_takes)).mono
    fun ts ⟨hread, taken, hspells⟩ t ht => ?_
  exact ⟨hread t ht, hspells.plain t ht⟩

section Blocks

variable {block : Recovering Tree} (hblock : block.Finds bound IsBlock)

include hblock

/-- What is found as a rule set or a mixin can be read, unless something in it is crowded. -/
theorem rulesetOrMixin_finds : (rulesetOrMixin block).Finds bound IsStatement := by
  have hlists : selectorList.Finds bound fun t => IsSelectorList t ∧ t.Plain :=
    selectorList_finds.plain (selectorList_takes.mono fun _ _ h => h.1)
  refine Recovering.Finds.node (Recovering.Finds.lift_bind hlists fun list ⟨hlist, hplain⟩ => ?_)
  refine Recovering.Finds.bind
    (P := fun parts => IsStatement (.node .rulesetOrMixin (list :: parts))) ?_
    fun parts hparts => .pure hparts
  have htokens {ts : List Tree} (hts : ∀ t ∈ ts, ∃ x, t = .leaf x) :
      ∀ t ∈ ts, t.Plain ∧ t.phrase? ≠ some .selectorList ∧ t.phrase? ≠ some .block := by
    intro t ht
    obtain ⟨x, rfl⟩ := hts t ht
    exact ⟨trivial, nofun, nofun⟩
  refine Recovering.Finds.here_bind fun c => ?_
  split
  · refine Recovering.Finds.lift_bind (arguments_finds.plain arguments_takes)
      fun args ⟨hargs, hargsPlain⟩ => ?_
    have hfind (rest : List Tree) :
        (Tree.node .rulesetOrMixin (list :: args :: rest)).node? .arguments = some args :=
      node?_append [list] _ (by simp [hlist.phrase_eq]) hargs.phrase_eq
    have hread (rest : List Tree) (found : Tree)
        (h : (Tree.node .rulesetOrMixin (list :: args :: rest)).node? .arguments = some found) :
        IsArguments found := by
      rw [hfind] at h
      cases h
      exact hargs
    have hargsBefore : args.Plain ∧ args.phrase? ≠ some .selectorList ∧
        args.phrase? ≠ some .block :=
      ⟨hargsPlain, by simp [hargs.phrase_eq], by simp [hargs.phrase_eq]⟩
    refine Recovering.Finds.here_bind fun c => ?_
    split
    · refine Recovering.Finds.lift_bind (Finds.phrase guard_takes)
        fun guard ⟨hguard, hguardPlain⟩ => ?_
      refine hblock.bind fun block hblock => .pure ?_
      refine isStatement_block hlist hplain [args, guard] ?_ (hread _) hblock
      simpa [hguard] using ⟨hargsBefore, hguardPlain⟩
    · split
      · refine hblock.bind fun block hblock => .pure ?_
        refine isStatement_block hlist hplain [args] ?_ (hread _) hblock
        exact List.forall_mem_singleton.mpr hargsBefore
      · refine Recovering.Finds.lift_bind (ending_finds _) fun rest hrest => .pure ?_
        refine isStatement_call hlist hplain ?_ (hread _) fun hnone => ?_
        · exact List.forall_mem_cons.mpr ⟨hargsBefore, htokens hrest⟩
        · rw [hfind] at hnone
          cases hnone
  · have hbare {rest : List Tree} (hrest : ∀ t ∈ rest, ∃ x, t = .leaf x)
        (hname : isCallable list = true ∨ hasExtend list = true) :
        IsStatement (.node .rulesetOrMixin (list :: rest)) := by
      have hnone : (Tree.node .rulesetOrMixin (list :: rest)).node? .arguments = none := by
        refine node?_eq_none (List.forall_mem_cons.mpr ⟨by simp [hlist.phrase_eq], fun t ht => ?_⟩)
        obtain ⟨x, rfl⟩ := hrest t ht
        nofun
      refine isStatement_call hlist hplain (htokens hrest) (fun args hargs => ?_) fun _ => hname
      rw [hnone] at hargs
      cases hargs
    split
    · rename_i hextend
      refine Recovering.Finds.lift_bind (Finds.expect _ _) fun semicolon ⟨x, hx, _⟩ => .pure ?_
      refine hbare (List.forall_mem_singleton.mpr ⟨x, hx⟩) (.inr ?_)
      exact (Bool.and_eq_true_iff.mp hextend).1
    · split
      · rename_i hcallable
        refine Recovering.Finds.lift ((ending_finds _).mono fun rest hrest => hbare hrest (.inl ?_))
        exact (Bool.and_eq_true_iff.mp hcallable).1
      · split
        · refine hblock.bind fun block hblock => .pure ?_
          refine isStatement_block hlist hplain [] nofun (fun args hargs => ?_) hblock
          rw [node?_eq_none] at hargs
          · cases hargs
          · simp [hlist.phrase_eq, hblock.phrase_eq]
        · exact Recovering.Finds.fail _ _

theorem mediaRule_finds : (mediaRule block).Finds bound IsAtRule := by
  refine Recovering.Finds.node ?_
  refine Recovering.Finds.lift_bind (Finds.expect _ _) fun head ⟨x, hhead, _⟩ => ?_
  refine Recovering.Finds.lift_bind (mediaList_finds.plain mediaList_takes)
    fun queries ⟨hqueries, hplain⟩ => ?_
  exact hblock.bind fun block hblock => .pure (isAtRule_media ⟨x, hhead⟩ hqueries hplain hblock)

theorem generalAtRule_finds : (generalAtRule block).Finds bound IsAtRule := by
  refine Recovering.Finds.node ?_
  refine Recovering.Finds.lift_bind (Finds.expect _ _) fun head ⟨x, hhead, hx⟩ => ?_
  refine Recovering.Finds.lift_bind atRulePrelude_finds fun content hcontent => ?_
  subst hhead
  refine Recovering.Finds.here_bind fun c => ?_
  split
  · refine Recovering.Finds.lift_bind (Finds.expect _ _) fun semicolon ⟨y, hy, _⟩ => .pure ?_
    exact isAtRule_general hx hcontent (.inl ⟨y, hy⟩)
  · exact hblock.bind fun block hblock => .pure (isAtRule_general hx hcontent (.inr hblock))

/-- What is found as an at-rule can be read, unless something in it is crowded. -/
theorem atRule_finds : (atRule block).Finds bound IsStatement := by
  refine Recovering.Finds.node (Recovering.Finds.here_bind fun c => ?_)
  split
  · exact Recovering.Finds.lift_bind importRule_finds fun t ht => .pure ht
  · exact Recovering.Finds.lift_bind pluginRule_finds fun t ht => .pure ht
  · exact (mediaRule_finds hblock).bind fun t ht => .pure ht
  · exact (generalAtRule_finds hblock).bind fun t ht => .pure ht
  · exact Recovering.Finds.fail _ _

/-- What is found as a statement can be read, if what is found in its blocks can. -/
theorem statement_finds (inBlock : Bool) : (statement block inBlock).Finds bound IsStatement := by
  refine Recovering.Finds.here_bind fun c => ?_
  split
  · exact Recovering.Finds.lift assignment_finds
  · split
    · exact atRule_finds hblock
    · have hearly :
          (if inBlock && startsHere c .declaration then attempt declaration else give none).Finds
          bound fun o => ∀ t, o = some t → IsStatement t := by
        split
        · exact declaration_finds.attempt
        · exact .pure nofun
      refine Recovering.Finds.lift_bind hearly fun early h => ?_
      cases early with
      | some t => exact .pure (h t rfl)
      | none =>
        dsimp only
        split
        · exact rulesetOrMixin_finds hblock
        · exact Recovering.Finds.fail _ _

end Blocks

/-! ## Rows of statements -/

/-- A row of statements in which nothing is noted. -/
theorem bodyWithin_finds {P : Tree → Prop} {statement : Recovering Tree}
    (hstatement : statement.Finds bound P) {inBlock : Bool} {n : Nat} {c : Cursor}
    (hc : Ready bound c.rest) (hnoted : (bodyWithin statement inBlock n c).noted = []) :
    Ready bound (bodyWithin statement inBlock n c).next.rest ∧
      ∀ t ∈ (bodyWithin statement inBlock n c).statements, P t := by
  fun_induction bodyWithin statement inBlock n c with
  | case1 c => exact ⟨hc, List.forall_mem_nil _⟩
  | case2 n c hrest => exact ⟨hc, List.forall_mem_nil _⟩
  | case3 n c t ts hrest ht => exact ⟨hc, List.forall_mem_nil _⟩
  | case4 n c t ts hrest ht _ body ih => exact absurd hnoted (List.cons_ne_nil _ _)
  | case5 n c t ts hrest ht noted tree next hfound body ih =>
    obtain ⟨hfirst, hothers⟩ := List.append_eq_nil_iff.mp hnoted
    have htree := hstatement c hc (by rw [hfound]; exact hfirst)
    rw [hfound] at htree
    obtain ⟨hready, hstatements⟩ := ih htree.1 hothers
    exact ⟨hready, List.forall_mem_cons.mpr ⟨htree.2, hstatements⟩⟩
  | case6 n c t ts hrest ht noted m next hfailed body ih => simp at hnoted

/-- Blocks nest no deeper than there are tokens: the left brace of each block takes one. -/
theorem blockWithin_finds (n : Nat) : (blockWithin n).Finds n IsBlock := by
  induction n with
  | zero =>
    refine Recovering.Finds.node (Recovering.Finds.expect_bind fun m hm => ?_)
    cases hm
  | succ n ih =>
    refine Recovering.Finds.node (Recovering.Finds.expect_bind fun m hm left => ?_)
    cases hm
    have hstatement := statement_finds ih true
    have hinner : (bodyTree (statement (blockWithin n) true)).Finds n fun t =>
        ∃ ts, t = .node .statements ts ∧ ∀ t ∈ ts, IsStatement t := by
      intro c hc hnoted
      obtain ⟨hready, hstatements⟩ := bodyWithin_finds hstatement hc hnoted
      exact ⟨hready, _, rfl, hstatements⟩
    refine hinner.bind fun inner ⟨ts, hts, hstatements⟩ => ?_
    refine Recovering.Finds.lift_bind (Finds.expect _ _) fun right ⟨y, hright, _⟩ => .pure ?_
    exact ⟨left, y, ts, by rw [hts, hright], hstatements⟩

end Parser

/-! ## Whole texts -/

/-- Every statement of a source without errors can be read, unless something in it is crowded. -/
theorem Parse.isStatement_ofText {source : String} (h : (Parse.ofText source).hasErrors = false) :
    ∀ t ∈ (Parse.ofText source).tree.children, Reading.IsStatement t := by
  have hnoted : (Parse.ofTokens (Lexing.ofText source).tokens).noted = [] := by
    simp only [Parse.hasErrors, Bool.or_eq_false_iff, Bool.not_eq_false', List.isEmpty_iff] at h
    exact h.2
  have hready : Ready (Lexing.ofText source).tokens.length (Lexing.ofText source).tokens :=
    ⟨Lexing.spelled_ofText source, Nat.le_refl _⟩
  have hstatement :=
    Parser.statement_finds (Parser.blockWithin_finds (Lexing.ofText source).tokens.length) false
  exact (Parser.bodyWithin_finds hstatement (c := ⟨none, _⟩) hready hnoted).2

/-- A text without complaints is read as its statements are. -/
theorem Ruleset.heeds_ofText {source : String} (h : (Parse.ofText source).hasErrors = false) :
    Heeds (Parse.ofText source).tree.subtrees (Ruleset.ofText source) := by
  have hnone : (Parse.ofText source).firstError? = none := by
    simp only [Parse.hasErrors, Bool.or_eq_false_iff, Bool.not_eq_false', List.isEmpty_iff] at h
    simp [Parse.firstError?, h.1, h.2]
  have hread := Reading.statements_heeds source.toList (Parse.isStatement_ofText h)
  have heq : Ruleset.ofText source =
      Ruleset.ofRules <$> Reading.statements source.toList (Parse.ofText source).tree.children := by
    unfold Ruleset.ofText
    simp only [hnone]
    rfl
  rw [heq]
  refine hread.map.congr ?_
  change (Tree.node .statements _).subtrees.find? isCrowded = _
  rw [subtrees, List.find?_cons, isCrowded_node (by decide)]
  rfl

/-- **A text without complaints can be read, unless a mixin in it has several selectors; then the
complaint is about the first one.** -/
theorem Ruleset.ofText_total {source : String} (h : (Parse.ofText source).hasErrors = false) :
    ((∃ r, Ruleset.ofText source = .ok r) ↔
        ∀ t ∈ (Parse.ofText source).tree.subtrees, t.isCrowded = false) ∧
      ∀ t, (Parse.ofText source).tree.subtrees.find? isCrowded = some t →
        Ruleset.ofText source = .error (.severalSelectors t.start) := by
  have hheeds := heeds_ofText h
  unfold Heeds at hheeds
  cases hfind : (Parse.ofText source).tree.subtrees.find? isCrowded with
  | none =>
    rw [hfind] at hheeds
    refine ⟨⟨fun _ t ht => ?_, fun _ => hheeds⟩, nofun⟩
    simpa using List.find?_eq_none.mp hfind t ht
  | some t =>
    rw [hfind] at hheeds
    refine ⟨⟨fun ⟨r, hr⟩ => ?_, fun hall => ?_⟩, fun u hu => ?_⟩
    · rw [hheeds] at hr
      cases hr
    · have hcrowded := List.find?_some hfind
      rw [hall t (List.mem_of_find?_eq_some hfind)] at hcrowded
      cases hcrowded
    · cases hu
      exact hheeds

/-- A call under two selectors inside of a rule set is refused, and the place is that of the
call. -/
theorem Ruleset.ofText_total_nested :
    (Parse.ofText ".a \x7b .b, .c(1px); \x7d").hasErrors = false ∧
      Ruleset.ofText ".a \x7b .b, .c(1px); \x7d" = .error (.severalSelectors 5) := by
  have hclean : (Parse.ofText ".a \x7b .b, .c(1px); \x7d").hasErrors = false := by decide +kernel
  have hstart : ((Parse.ofText ".a \x7b .b, .c(1px); \x7d").tree.subtrees.find? isCrowded).map
      Tree.start = some 5 := by decide +kernel
  obtain ⟨t, ht, hoffset⟩ := Option.map_eq_some_iff.mp hstart
  refine ⟨hclean, ?_⟩
  rw [← hoffset]
  exact (Ruleset.ofText_total hclean).2 t ht

end LessCss
