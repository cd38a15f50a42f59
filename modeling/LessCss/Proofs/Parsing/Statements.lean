import LessCss.Proofs.Parsing.Occurring
import LessCss.Proofs.Parsing.Totality

/-!
# Statements at any depth

Statements have blocks, and these have statements again.  What the parser of statements finds is
followed through all blocks here once: if a block that is found has only statements of some sort in
it, then so has every block in what is found with that block (`Parser.statement_inBlock`).  Blocks
nest by recursion, so that what is found as a statement whenever the blocks in it are of a sort
holds of all statements of a text without complaints (`Parse.forall_statements`), and what is found
as a statement in any case holds of the statements in all blocks as well (`Parse.forall_liesIn`).
-/

namespace LessCss

namespace Tree

variable {Q : Tree → Prop} {t u : Tree}

/-- A statement is another one, or lies in a block of it at some depth. -/
inductive LiesIn (t : Tree) : Tree → Prop
  | self : LiesIn t t
  | block {u v : Tree} (hu : u.InBlock v) (h : LiesIn t u) : LiesIn t v

/-- A statement that lies in another one occurs in it. -/
theorem LiesIn.occursIn (h : t.LiesIn u) : t.OccursIn u := by
  induction h with
  | self => exact .self
  | block hu _ ih => exact ih.trans hu.occursIn

/-- If a tree is a block, its statements have a property. -/
def Inside (Q : Tree → Prop) (u : Tree) : Prop := ∀ t ∈ u.inner, Q t

/-- A phrase other than a block has no statements of its own. -/
theorem inside_of_phrase (h : u.phrase? ≠ some .block) : u.Inside Q := by
  rw [Inside, inner_eq_nil h]
  nofun

theorem inside_leaf (x : Token) : (leaf x).Inside Q := inside_of_phrase nofun

theorem inside_tokens {ts : List Tree} (h : ∀ t ∈ ts, ∃ x, t = leaf x) : ∀ u ∈ ts, u.Inside Q := by
  intro u hu
  obtain ⟨x, rfl⟩ := h u hu
  exact inside_leaf x

end Tree

namespace Parser

open LessCss.Tree

variable {bound : Nat} {Q : Tree → Prop} {block : Recovering Tree}

section Blocks

variable (hblock : block.Finds bound (Inside Q))

include hblock

/-- What stands behind selectors has no statements but those of its block. -/
theorem afterSelectors_inside (selectors : Tree) :
    (afterSelectors block selectors).Finds bound fun parts => ∀ u ∈ parts, u.Inside Q := by
  refine Recovering.Finds.here_bind fun c => ?_
  split
  · refine Recovering.Finds.lift_bind arguments_finds fun args hargs => ?_
    have hargs : args.Inside Q := inside_of_phrase (by simp [hargs.phrase_eq])
    refine Recovering.Finds.here_bind fun c => ?_
    split
    · refine Recovering.Finds.lift_bind (Finds.phrase guard_takes) fun guard ⟨hguard, _⟩ => ?_
      refine hblock.bind fun inner hinner => .pure ?_
      simpa using ⟨hargs, inside_of_phrase (by simp [hguard]), hinner⟩
    · split
      · exact hblock.bind fun inner hinner => .pure (by simpa using ⟨hargs, hinner⟩)
      · refine Recovering.Finds.lift_bind (ending_finds _) fun rest hrest => .pure ?_
        exact List.forall_mem_cons.mpr ⟨hargs, inside_tokens hrest⟩
  · split
    · refine Recovering.Finds.lift_bind (Finds.expect _ _) fun semicolon ⟨x, hx, _⟩ => .pure ?_
      exact inside_tokens (List.forall_mem_singleton.mpr ⟨x, hx⟩)
    · split
      · exact Recovering.Finds.lift ((ending_finds _).mono fun rest hrest => inside_tokens hrest)
      · split
        · exact hblock.bind fun inner hinner => .pure (List.forall_mem_singleton.mpr hinner)
        · exact Recovering.Finds.fail _ _

theorem mediaRule_inside :
    (mediaRule block).Finds bound fun t => ∃ parts, t = .node .mediaRule parts ∧ ∀ u ∈ parts,
      u.Inside Q := by
  refine Recovering.Finds.node (Recovering.Finds.lift_bind (Finds.expect _ _)
    fun head ⟨x, hhead, _⟩ => ?_)
  refine Recovering.Finds.lift_bind mediaList_finds fun queries hqueries => ?_
  refine hblock.bind fun inner hinner => .pure ⟨_, rfl, ?_⟩
  simpa using ⟨hhead ▸ inside_leaf x, inside_of_phrase (by simp [hqueries.phrase_eq]), hinner⟩

theorem generalAtRule_inside : (generalAtRule block).Finds bound fun t =>
    ∃ parts, t = .node .generalAtRule parts ∧ ∀ u ∈ parts, u.Inside Q := by
  refine Recovering.Finds.node (Recovering.Finds.lift_bind (Finds.expect _ _)
    fun head ⟨x, hhead, _⟩ => ?_)
  refine Recovering.Finds.lift_bind atRulePrelude_finds fun content hcontent => ?_
  have hcontent : ∀ u ∈ content, u.Inside Q := by
    intro u hu
    rcases (hcontent u hu).1 with ⟨y, rfl⟩ | hvalue
    · exact inside_leaf y
    · exact inside_of_phrase (by simp [hvalue.phrase_eq])
  have hparts {last : Tree} (hlast : last.Inside Q) : ∀ u ∈ head :: content ++ [last],
      u.Inside Q := by
    refine List.forall_mem_append.mpr
      ⟨List.forall_mem_cons.mpr ⟨?_, hcontent⟩, List.forall_mem_singleton.mpr hlast⟩
    exact hhead ▸ inside_leaf x
  refine Recovering.Finds.here_bind fun c => ?_
  split
  · refine Recovering.Finds.lift_bind (Finds.expect _ _) fun semicolon ⟨y, hy, _⟩ =>
      .pure ⟨_, rfl, hparts ?_⟩
    exact hy ▸ inside_leaf y
  · exact hblock.bind fun inner hinner => .pure ⟨_, rfl, hparts hinner⟩

end Blocks

/-! ## The sorts of statements -/

section Sorts

variable {P : Tree → Prop}

/-- An at-rule is what each of its sorts is. -/
theorem atRule_finds_of
    (himport : ∀ t, t.phrase? = some .importRule ∨ t.phrase? = some .pluginRule →
      P (.node .atRule [t]))
    (hmedia : (mediaRule block).Finds bound fun t => P (.node .atRule [t]))
    (hgeneral : (generalAtRule block).Finds bound fun t => P (.node .atRule [t])) :
    (atRule block).Finds bound P := by
  refine Recovering.Finds.node (Recovering.Finds.here_bind fun c => ?_)
  split
  · exact Recovering.Finds.lift_bind (Finds.phrase importRule_takes) fun t ht =>
      .pure (himport t (.inl ht.1))
  · exact Recovering.Finds.lift_bind (Finds.phrase pluginRule_takes) fun t ht =>
      .pure (himport t (.inr ht.1))
  · exact hmedia.bind fun t ht => .pure ht
  · exact hgeneral.bind fun t ht => .pure ht
  · exact Recovering.Finds.fail _ _

/-- A statement is what each of its sorts is. -/
theorem statement_finds_of
    (hsetting : ∀ t, t.phrase? = some .assignment ∨ t.phrase? = some .declaration → P t)
    (hatRule : (atRule block).Finds bound P) (hruleset : (rulesetOrMixin block).Finds bound P)
    (inBlock : Bool) :
    (statement block inBlock).Finds bound P := by
  refine Recovering.Finds.here_bind fun c => ?_
  split
  · exact Recovering.Finds.lift ((Finds.phrase assignment_takes).mono fun t ht =>
      hsetting t (.inl ht.1))
  · split
    · exact hatRule
    · have hearly :
          (if inBlock && startsHere c .declaration then attempt declaration else give none).Finds
          bound fun o => ∀ t, o = some t → P t := by
        split
        · exact ((Finds.phrase declaration_takes).mono fun t ht => hsetting t (.inr ht.1)).attempt
        · exact .pure nofun
      refine Recovering.Finds.lift_bind hearly fun early h => ?_
      cases early with
      | some t => exact .pure (h t rfl)
      | none =>
        dsimp only
        split
        · exact hruleset
        · exact Recovering.Finds.fail _ _

end Sorts

/-- **What is found with blocks of some sort has blocks of that sort.** -/
theorem statement_inBlock (hblock : block.Finds bound (Inside Q)) (inBlock : Bool) :
    (statement block inBlock).Finds bound fun t => ∀ v : Tree, v.InBlock t → Q v := by
  have hparts {p : Phrase} {parts : List Tree} (hparts : ∀ u ∈ parts, u.Inside Q) (v : Tree)
      (hv : v.InBlock (.node .atRule [.node p parts])) : Q v := by
    cases hv with
    | atRule _ hu hv => exact hparts _ hu v hv
  refine statement_finds_of ?_ (atRule_finds_of ?_ ?_ ?_) ?_ inBlock
  · rintro t ht v hv
    cases hv <;> rcases ht with ht | ht <;> cases ht
  · rintro t ht v hv
    cases hv with
    | atRule hp _ _ => rcases hp with rfl | rfl <;> rcases ht with ht | ht <;> cases ht
  · exact (mediaRule_inside hblock).mono fun t ⟨parts, ht, hinside⟩ => ht ▸ hparts hinside
  · exact (generalAtRule_inside hblock).mono fun t ⟨parts, ht, hinside⟩ => ht ▸ hparts hinside
  · refine Recovering.Finds.node (Recovering.Finds.lift_bind selectorList_finds fun list _ => ?_)
    refine (afterSelectors_inside hblock list).bind fun parts hinside => .pure fun v hv => ?_
    cases hv with
    | rulesetOrMixin hu hv => exact hinside _ hu v hv

/-! ## Blocks in blocks -/

section Nested

variable (hstatement : ∀ n, (blockWithin n).Finds n (Inside Q) →
  ∀ inBlock, (statement (blockWithin n) inBlock).Finds n Q)

include hstatement

/-- Blocks nest no deeper than there are tokens. -/
theorem blockWithin_inside (n : Nat) : (blockWithin n).Finds n (Inside Q) := by
  induction n with
  | zero =>
    refine Recovering.Finds.node (Recovering.Finds.expect_bind fun m hm => ?_)
    cases hm
  | succ n ih =>
    refine Recovering.Finds.node (Recovering.Finds.expect_bind fun m hm left => ?_)
    cases hm
    have hrow : (bodyTree (statement (blockWithin n) true)).Finds n fun t =>
        ∃ ts, t = .node .statements ts ∧ ∀ t ∈ ts, Q t := by
      intro c hc hnoted
      obtain ⟨hready, hstatements⟩ := bodyWithin_finds (hstatement n ih true) hc hnoted
      exact ⟨hready, _, rfl, hstatements⟩
    refine hrow.bind fun row ⟨ts, hts, hstatements⟩ => ?_
    refine Recovering.Finds.lift_bind (Finds.expect _ _) fun right _ => .pure ?_
    rw [hts]
    exact hstatements

end Nested

end Parser

namespace Parse

open LessCss.Parser LessCss.Tree

variable {source : String} (hclean : (ofText source).mismatches = []) {P Q : Tree → Prop}

include hclean

/-- **All statements of a text without complaints are of a sort** if every statement is found to be
as soon as those in its blocks are. -/
theorem forall_statements
    (hstatement : ∀ n, (blockWithin n).Finds n (Inside Q) → ∀ inBlock,
      (statement (blockWithin n) inBlock).Finds n Q) :
    ∀ t ∈ (ofText source).tree.children, Q t := by
  have hready : Ready (Lexing.ofText source).tokens.length (Lexing.ofText source).tokens :=
    ⟨Lexing.spelled_ofText source, Nat.le_refl _⟩
  have hblock := blockWithin_inside hstatement (Lexing.ofText source).tokens.length
  exact (bodyWithin_finds (hstatement _ hblock false) (c := ⟨none, _⟩) hready hclean).2

/-- **What every statement is found to be** holds of all statements of a text without complaints, at
any depth. -/
theorem forall_liesIn (hP : ∀ n inBlock, (statement (blockWithin n) inBlock).Finds n P) :
    ∀ s ∈ (ofText source).tree.children, ∀ t : Tree, t.LiesIn s → P t := by
  refine forall_statements hclean fun n hblock inBlock => ?_
  refine ((hP n inBlock).and (statement_inBlock hblock inBlock)).mono fun s ⟨hs, hinner⟩ t ht => ?_
  cases ht with
  | self => exact hs
  | block hu h => exact hinner _ hu t h

end Parse

end LessCss
